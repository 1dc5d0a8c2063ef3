import CommandCoverage.Files.Reader

namespace CommandCoverage

abbrev Environment := List (String × String)

namespace Environment

def isLineEnd (c : Char) : Bool := c == '\n' || c == '\r'

def isGap (c : Char) : Bool := Text.isBlank c && !isLineEnd c

def dropGaps (cs : List Char) : List Char := cs.dropWhile isGap

/-- A quoted text after its opening quote, and what follows it. A backslash keeps the quote after
it from closing. -/
def quoted (q : Char) : List Char → List Char → Option (List Char × List Char)
  | _, [] => none
  | acc, '\\' :: c :: r =>
    if c == q then quoted q (c :: '\\' :: acc) r else quoted q ('\\' :: acc) (c :: r)
  | acc, c :: r => if c == q then some (acc.reverse, r) else quoted q (c :: acc) r

def lastQuoted (q : Char) (cs : List Char) : Option (List Char × List Char) :=
  match quoted q [] cs with
  | some r => some r
  | none =>
    let after := cs.reverse.takeWhile (· != q)
    if after.length < cs.length then
      some (cs.take (cs.length - after.length - 1), after.reverse)
    else none

def doubleEscapes : List (Char × Char) :=
  [('\\', '\\'), ('\'', '\''), ('\"', '\"'), ('a', '\x07'), ('b', '\x08'), ('f', '\x0c'),
    ('n', '\n'), ('r', '\r'), ('t', '\t'), ('v', '\x0b')]

def singleEscapes : List (Char × Char) := [('\\', '\\'), ('\'', '\'')]

def unescape (table : List (Char × Char)) : List Char → List Char
  | '\\' :: c :: r =>
    match table.lookup c with
    | some d => d :: unescape table r
    | none => '\\' :: unescape table (c :: r)
  | c :: r => c :: unescape table r
  | [] => []

def withoutComment : List Char → List Char
  | [] => []
  | c :: r =>
    if Text.isBlank c && (r.dropWhile Text.isBlank).head? == some '#' then []
    else c :: withoutComment r

def value : List Char → Option (List Char × List Char)
  | '\'' :: r => (lastQuoted '\'' r).map fun (v, r) ↦ (unescape singleEscapes v, r)
  | '\"' :: r => (lastQuoted '\"' r).map fun (v, r) ↦ (unescape doubleEscapes v, r)
  | cs =>
    let line := cs.takeWhile (!isLineEnd ·)
    some (Text.trimEnd (withoutComment line), cs.drop line.length)

def dropExport (cs : List Char) : List Char :=
  if "export".toList.isPrefixOf cs && (cs.drop 6).head?.any isGap then dropGaps (cs.drop 6) else cs

/-- A name; none in a line that is a comment only. -/
def key : List Char → Option (Option (List Char) × List Char)
  | '#' :: r => some (none, '#' :: r)
  | '\'' :: r =>
    let k := r.takeWhile (· != '\'')
    if k.isEmpty || k.length == r.length then none else some (some k, r.drop (k.length + 1))
  | cs =>
    let k := cs.takeWhile fun c ↦ c != '=' && c != '#' && !Text.isBlank c
    if k.isEmpty then none else some (some k, cs.drop k.length)

def dropLineEnd : List Char → List Char
  | '\r' :: '\n' :: r => r
  | c :: r => if isLineEnd c then r else c :: r
  | [] => []

def lineEnd (cs : List Char) : Option (List Char) :=
  let r := dropGaps cs
  let r := if r.head? == some '#' then r.dropWhile (!isLineEnd ·) else r
  if r.isEmpty then some [] else if r.head?.any isLineEnd then some (dropLineEnd r) else none

def dropLine (cs : List Char) : List Char := dropLineEnd (cs.dropWhile (!isLineEnd ·))

/-- The variable that a line sets, and what follows the line. A line that cannot be read, and one
with a name alone, sets none. -/
def binding (cs : List Char) : Option (List Char × List Char) × List Char :=
  let cs := dropExport cs
  match key cs with
  | none => (none, dropLine cs)
  | some (k, r) =>
    let r := dropGaps r
    let given := if r.head? == some '=' then
      (value (dropGaps r.tail)).map fun (v, r) ↦ (some v, r) else some (none, r)
    match given with
    | none => (none, dropLine r)
    | some (v, r) =>
      match lineEnd r with
      | none => (none, dropLine r)
      | some rest => (k.bind fun k ↦ v.map fun v ↦ (k, v), rest)

def bindingsUpTo : Nat → List Char → List (List Char × List Char)
  | 0, _ => []
  | n + 1, cs =>
    let cs := cs.dropWhile Text.isBlank
    if cs.isEmpty then []
    else
      let (b, rest) := binding cs
      b.toList ++ bindingsUpTo n rest

/-- Puts the values of variables in. A name may be followed by a text for when it is not set. -/
def expandUpTo (env : Environment) : Nat → List Char → List Char
  | 0, cs => cs
  | _, [] => []
  | n + 1, '$' :: '\x7b' :: r =>
    let name := r.takeWhile fun c ↦ c != '\x7d' && c != ':'
    let after := r.drop name.length
    let found := env.lookup (String.ofList name)
    match after with
    | '\x7d' :: rest => (found.getD "").toList ++ expandUpTo env n rest
    | ':' :: '-' :: d =>
      let default := d.takeWhile (· != '\x7d')
      if default.length < d.length then
        (found.map (·.toList)).getD default ++ expandUpTo env n (d.drop (default.length + 1))
      else '$' :: expandUpTo env n ('\x7b' :: r)
    | _ => '$' :: expandUpTo env n ('\x7b' :: r)
  | n + 1, c :: r => c :: expandUpTo env n r

/-- The variables that a text sets, with the values of earlier ones put in. The environment wins
over the text. -/
def ofText (env : Environment) (text : String) : Environment :=
  let cs := text.toList
  (bindingsUpTo (cs.length + 1) cs).foldl (fun set (k, v) ↦
    let v := expandUpTo (env ++ set) (v.length + 1) v
    let k := String.ofList k
    (k, String.ofList v) :: set.filter (·.1 != k)) []

/-- The files that may set variables; the first that exists does. -/
def files : List String := [".env.development", ".env"]

/-- The environment with what the first of the files sets. Variables that are set already stay. -/
def withFiles (env : Environment) (t : FileTree) : Environment :=
  match files.find? fun p ↦ (t.get? p).isSome with
  | none => env
  | some p =>
    match t.get? p with
    | some (.file bytes) =>
      match Text.decodeUtf8 bytes with
      | .ok text => env ++ (ofText env text).filter fun (k, _) ↦ (env.lookup k).isNone
      | .error _ => env
    | _ => env

end Environment

end CommandCoverage
