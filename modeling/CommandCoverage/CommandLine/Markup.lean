import CommandCoverage.Text.Blank

namespace CommandCoverage.CommandLine.Markup

def isTagStart (c : Char) : Bool :=
  ('a' ≤ c && c ≤ 'z') || c == '#' || c == '/' || c == '@'

def tag? : List Char → Option (List Char × List Char)
  | '[' :: c :: r =>
    let body := r.takeWhile fun d ↦ d != '[' && d != ']'
    match isTagStart c, r.drop body.length with
    | true, ']' :: rest => some (c :: body, rest)
    | _, _ => none
  | _ => none

def backslashes (n : Nat) : List Char := List.replicate n '\\'

inductive Part where
  | tag (name : List Char)
  | plain (text : List Char)
  deriving DecidableEq, Repr

def prepend (c : Char) : List Part → List Part
  | .plain t :: ps => .plain (c :: t) :: ps
  | ps => .plain [c] :: ps

/-- The parts of a text, of which at most the first `fuel` characters are looked at. A backslash
before a bracket that starts no tag is left out. -/
def partsUpTo : Nat → List Char → List Part
  | 0, _ => []
  | _, [] => []
  | fuel + 1, c :: r =>
    let slashes := (c :: r).takeWhile (· == '\\')
    match tag? ((c :: r).drop slashes.length) with
    | some (name, rest) =>
      let shown := Part.plain (backslashes (slashes.length / 2))
      if slashes.length % 2 == 1 then
        shown :: .plain ('[' :: name ++ [']']) :: partsUpTo fuel rest
      else shown :: .tag name :: partsUpTo fuel rest
    | none =>
      if c == '\\' && r.head? == some '[' then prepend '[' (partsUpTo fuel r.tail)
      else prepend c (partsUpTo fuel r)

def parts (cs : List Char) : List Part := partsUpTo cs.length cs

def styleName (name : List Char) : List Char :=
  (Text.trim (name.takeWhile (· != '='))).map Char.toLower

/-- What is shown while the styles are open; none if a tag closes a style that is not. -/
def shownParts : List (List Char) → List Part → Option (List Char)
  | _, [] => some []
  | styles, .plain t :: ps => (shownParts styles ps).map (t ++ ·)
  | styles, .tag ('/' :: name) :: ps =>
    let name := styleName name
    if name.isEmpty then if styles.isEmpty then none else shownParts styles.tail ps
    else if styles.contains name then shownParts (styles.erase name) ps
    else none
  | styles, .tag name :: ps => shownParts (styleName name :: styles) ps

def shown (s : String) : Option String :=
  (shownParts [] (parts s.toList)).map String.ofList

/-- What looks like a tag at the start of a text, up to the first closing bracket of the line. -/
def looseTag? : List Char → Option (List Char × List Char)
  | '[' :: c :: r =>
    let body := r.takeWhile fun d ↦ d != ']' && d != '\n'
    match isTagStart c, r.drop body.length with
    | true, ']' :: rest => some ('[' :: c :: body ++ [']'], rest)
    | _, _ => none
  | _ => none

def escapeUpTo : Nat → List Char → List Char
  | 0, _ => []
  | _, [] => []
  | fuel + 1, c :: r =>
    let slashes := (c :: r).takeWhile (· == '\\')
    match looseTag? ((c :: r).drop slashes.length) with
    | some (text, rest) => slashes ++ slashes ++ '\\' :: text ++ escapeUpTo fuel rest
    | none => c :: escapeUpTo fuel r

def closeEnd (cs : List Char) : List Char :=
  match cs.reverse with
  | '\\' :: '\\' :: _ => cs
  | '\\' :: _ => cs ++ ['\\']
  | _ => cs

def escape (s : String) : String :=
  String.ofList (closeEnd (escapeUpTo s.length s.toList))

end CommandCoverage.CommandLine.Markup
