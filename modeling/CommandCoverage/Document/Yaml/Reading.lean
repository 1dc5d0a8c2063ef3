import CommandCoverage.Document.Basic

namespace CommandCoverage.Document.Yaml

abbrev Reader := List Char → Option (List Char)

def readsAll (p : Reader) (cs : List Char) : Bool := p cs == some []

def isDigit (c : Char) : Bool := '0' ≤ c && c ≤ '9'

def isSpacedDigit (c : Char) : Bool := isDigit c || c == '_'

namespace Reader

def one (p : Char → Bool) : Reader
  | c :: r => if p c then some r else none
  | [] => none

def many (p : Char → Bool) : Reader := fun cs ↦ some (cs.dropWhile p)

def many1 (p : Char → Bool) : Reader := fun cs ↦ (one p cs).bind (many p)

def andThen (p q : Reader) : Reader := fun cs ↦ (p cs).bind q

def seq (ps : List Reader) : Reader := ps.foldr andThen some

def optional (p : Reader) : Reader := fun cs ↦ p cs <|> some cs

def word (w : String) : Reader := fun cs ↦
  if w.toList.isPrefixOf cs then some (cs.drop w.length) else none

def anyOf (ps : List Reader) : Reader := fun cs ↦ ps.findSome? (· cs)

def digit : Reader := one isDigit

def digits12 : Reader := seq [digit, optional digit]

def sign : Reader := one fun c ↦ c == '+' || c == '-'

def sixtieth : Reader := anyOf
  [seq [word ":", one (fun c ↦ '0' ≤ c && c ≤ '5'), digit], seq [word ":", digit]]

def manySixtieths : Nat → Reader
  | 0 => some
  | n + 1 => fun cs ↦ (sixtieth cs).bind (manySixtieths n) <|> some cs

def sixtieths : Reader := fun cs ↦ (sixtieth cs).bind (manySixtieths cs.length)

def exponent : Reader := seq [one (fun c ↦ c == 'e' || c == 'E'), sign, many1 isDigit]

end Reader

open Reader

def integers : List Reader :=
  [seq [word "0b", many1 fun c ↦ c == '0' || c == '1' || c == '_'],
    seq [word "0", many1 fun c ↦ ('0' ≤ c && c ≤ '7') || c == '_'],
    word "0",
    seq [one (fun c ↦ '1' ≤ c && c ≤ '9'), many isSpacedDigit],
    seq [word "0x", many1 fun c ↦ isSpacedDigit c || ('a' ≤ c && c ≤ 'f') || ('A' ≤ c && c ≤ 'F')],
    seq [one (fun c ↦ '1' ≤ c && c ≤ '9'), many isSpacedDigit, sixtieths]]

def signedNumbers : List Reader :=
  [seq [digit, many isSpacedDigit, word ".", many isSpacedDigit, optional exponent],
    seq [digit, many isSpacedDigit, sixtieths, word ".", many isSpacedDigit],
    word ".inf", word ".Inf", word ".INF"]

def unsignedNumbers : List Reader :=
  [seq [word ".", digit, many isSpacedDigit, optional exponent],
    word ".nan", word ".NaN", word ".NAN"]

def date : Reader :=
  seq [digit, digit, digit, digit, word "-", digit, digit, word "-", digit, digit]

def gap (c : Char) : Bool := c == ' ' || c == '\t'

def zone : Reader := anyOf
  [word "Z", seq [sign, digits12, optional (seq [word ":", digit, digit])]]

def moment : Reader := seq
  [digit, digit, digit, digit, word "-", digits12, word "-", digits12,
    anyOf [word "T", word "t", many1 gap], digits12, word ":", digit, digit, word ":", digit, digit,
    optional (seq [word ".", many isDigit]), optional (seq [many gap, zone])]

def words : List String :=
  ["", "~", "null", "Null", "NULL", "<<", "=",
    "yes", "Yes", "YES", "no", "No", "NO", "true", "True", "TRUE", "false", "False", "FALSE",
    "on", "On", "ON", "off", "Off", "OFF"]

def isTaken (s : String) : Bool :=
  let cs := s.toList
  let unsigned := ((sign cs).getD cs)
  words.contains s || integers.any (readsAll · unsigned) || signedNumbers.any (readsAll · unsigned) ||
    unsignedNumbers.any (readsAll · cs) || readsAll date cs || readsAll moment cs

end CommandCoverage.Document.Yaml
