import CommandCoverage.Document.Yaml.Reading

namespace CommandCoverage.Document.Yaml

def width : Nat := 80

def isBreak (c : Char) : Bool := c == '\n' || c == '\u0085' || c == '\u2028' || c == '\u2029'

def isSeparator (c : Char) : Bool :=
  c == '\x00' || c == ' ' || c == '\t' || c == '\r' || isBreak c

def isShown (c : Char) : Bool :=
  c == '\n' || (' ' ≤ c && c ≤ '~') || c == '\u0085' || ('\u00a0' ≤ c && c ≤ '\ud7ff') ||
    ('\ue000' ≤ c && c ≤ '\ufffd' && c != '\ufeff') ||
    (0x10000 ≤ c.toNat && c.toNat < 0x10ffff)

def isOpen (c : Option Char) : Bool := c.all isSeparator

def isLeadIndicator (c : Char) (next : Option Char) : Bool :=
  "#,[]\x7b\x7d&*!|>'\"%@\x60".toList.contains c || ("?:-".toList.contains c && isOpen next)

/-- Inside, a colon before a separator and a number sign after one would mean something. -/
def hasIndicator : List Char → Bool
  | [] => false
  | ':' :: r => isOpen r.head? || hasIndicator r
  | c :: '#' :: r => isSeparator c || hasIndicator ('#' :: r)
  | _ :: r => hasIndicator r

def hasPair (p q : Char → Bool) (cs : List Char) : Bool :=
  (cs.zip cs.tail).any fun (a, b) ↦ p a && q b

def isSpace (c : Char) : Bool := c == ' '

inductive Style where
  | plain | single | double
  deriving DecidableEq, Repr

def fitsSingle (cs : List Char) : Bool :=
  cs.all isShown && !hasPair isSpace isBreak cs && !hasPair isBreak isSpace cs

def fitsPlain (cs : List Char) : Bool :=
  cs.all isShown && !cs.any isBreak && !cs.head?.any isSpace && !cs.getLast?.any isSpace &&
    !"---".toList.isPrefixOf cs && !"...".toList.isPrefixOf cs &&
    !cs.head?.any (isLeadIndicator · cs.tail.head?) && !hasIndicator cs

def style (s : String) : Style :=
  if fitsPlain s.toList && !isTaken s then .plain
  else if fitsSingle s.toList then .single
  else .double

inductive RunKind where
  | spaces | breaks | letters
  deriving DecidableEq, Repr

def runKind (c : Char) : RunKind :=
  if isSpace c then .spaces else if isBreak c then .breaks else .letters

def runs (cs : List Char) : List (List Char) := cs.splitBy fun a b ↦ runKind a == runKind b

def indentation (indent : Nat) : List Char := List.replicate indent ' '

def foldedLine (indent : Nat) : List Char := '\n' :: indentation indent

def columnAfter (column : Nat) (cs : List Char) : Nat :=
  if cs.contains '\n' then (cs.reverse.takeWhile (· != '\n')).length else column + cs.length

def singleRun (indent : Nat) (run : List Char) : List Char :=
  match run.head?.map runKind with
  | some .breaks =>
    (if run.head? == some '\n' then ['\n'] else []) ++ run ++ indentation indent
  | _ => run.flatMap fun c ↦ if c == '\'' then ['\'', '\''] else [c]

/-- Writes the runs of a text from a column on. A single space between words is where a line that
is too long is folded. -/
def foldRuns (indent : Nat) (fold : Bool) (write : List Char → List Char) :
    Nat → Bool → List (List Char) → List Char
  | _, _, [] => []
  | column, inside, run :: rest =>
    if fold && inside && run == [' '] && !rest.isEmpty && column > width then
      foldedLine indent ++ foldRuns indent fold write indent true rest
    else
      let written := write run
      let column := if run.any isBreak then indent else column + written.length
      written ++ foldRuns indent fold write column true rest

def plainText (indent column : Nat) (fold : Bool) (cs : List Char) : List Char :=
  foldRuns indent fold id column false (runs cs)

def singleText (indent column : Nat) (fold : Bool) (cs : List Char) : List Char :=
  '\'' :: foldRuns indent fold (singleRun indent) (column + 1) false (runs cs) ++ ['\'']

def letterEscapes : List (Char × Char) :=
  [('\x00', '0'), ('\x07', 'a'), ('\x08', 'b'), ('\t', 't'), ('\n', 'n'), ('\x0b', 'v'),
    ('\x0c', 'f'), ('\r', 'r'), ('\x1b', 'e'), ('\"', '\"'), ('\\', '\\'), ('\u0085', 'N'),
    ('\u2028', 'L'), ('\u2029', 'P')]

def upperHex (digits n : Nat) : List Char :=
  (List.range digits).reverse.map fun k ↦ (Nat.digitChar (n / Nat.pow 16 k % 16)).toUpper

def isLiteral (c : Char) : Bool :=
  c != '\"' && c != '\\' && c != '\u2028' && c != '\u2029' && c != '\ufeff' &&
    ((' ' ≤ c && c ≤ '~') || ('\u00a0' ≤ c && c ≤ '\ud7ff') || ('\ue000' ≤ c && c ≤ '\ufffd'))

def escaped (c : Char) : List Char :=
  match letterEscapes.lookup c with
  | some l => ['\\', l]
  | none =>
    if c.toNat ≤ 0xff then '\\' :: 'x' :: upperHex 2 c.toNat
    else if c.toNat ≤ 0xffff then '\\' :: 'u' :: upperHex 4 c.toNat
    else '\\' :: 'U' :: upperHex 8 c.toNat

def doubleFold (indent : Nat) (next : Option Char) : List Char :=
  '\\' :: foldedLine indent ++ if next == some ' ' then ['\\'] else []

/-- Writes the characters in double quotes from a column on. A line that is too long is folded
before a space or beside an escape, but not beside the first character or before the last. -/
def doubleFrom (indent : Nat) (fold : Bool) :
    Nat → (first afterEscape : Bool) → List Char → List Char
  | _, _, _, [] => []
  | column, first, afterEscape, c :: rest =>
    let mayFold := fold && !first && !rest.isEmpty
    if isLiteral c then
      if mayFold && (c == ' ' || afterEscape) && column > width then
        let lead := doubleFold indent (some c)
        lead ++ c :: doubleFrom indent fold (columnAfter column lead + 1) false false rest
      else c :: doubleFrom indent fold (column + 1) false false rest
    else
      let text := escaped c
      let column := column + text.length
      if mayFold && column > width + 1 then
        let lead := doubleFold indent rest.head?
        text ++ lead ++ doubleFrom indent fold (columnAfter column lead) false true rest
      else text ++ doubleFrom indent fold column false true rest

def doubleText (indent column : Nat) (fold : Bool) (cs : List Char) : List Char :=
  '\"' :: doubleFrom indent fold (column + 1) true false cs ++ ['\"']

def scalar (indent column : Nat) (fold : Bool) (s : String) : String :=
  String.ofList <|
    match style s with
    | .plain => plainText indent column fold s.toList
    | .single => singleText indent column fold s.toList
    | .double => doubleText indent column fold s.toList

end CommandCoverage.Document.Yaml
