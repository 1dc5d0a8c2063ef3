import CommandCoverage.Script.Cursor

namespace CommandCoverage.Script

abbrev Parser (α : Type) := StateT Cursor Option α

inductive Goal where
  | statement
  /-- An expression without a comma at its top, `in` being an operator or not. -/
  | expression (allowIn : Bool)
  | unary
  | constructed
  /-- A pattern; where it is assigned, not declared, members may be named in it. -/
  | pattern (assigned : Bool)
  | type
  | markup

/-- Which of the optional parts of the language a file may use, and how its parts are parsed. -/
structure Grammar where
  types : Bool
  markup : Bool
  parse : Goal → Parser Node

namespace Parser

variable {α β : Type}

def absent (p : Parser α) : Parser Unit := fun c ↦
  match p c with
  | some _ => none
  | none => some ((), c)

def ahead (p : Parser α) : Parser Unit := fun c ↦ (p c).map fun _ ↦ ((), c)

def orElse (p : Parser α) (a : α) : Parser α := p <|> pure a

def optional (p : Parser α) : Parser (Option α) := (some <$> p) <|> pure none

def taken (p : Parser α) : Parser Bool := (p *> pure true) <|> pure false

def guard (b : Bool) : Parser Unit := if b then pure () else failure

def manyUpTo (p : Parser α) : Nat → List α → Parser (List α)
  | 0, acc, c => some (acc.reverse, c)
  | n + 1, acc, c =>
    match p c with
    | some (a, e) => if c.offset < e.offset then manyUpTo p n (a :: acc) e
      else some (acc.reverse, c)
    | none => some (acc.reverse, c)

def many (p : Parser α) : Parser (List α) := fun c ↦ manyUpTo p (c.size + 1) [] c

def growUpTo (step : α → Parser α) : Nat → α → Parser α
  | 0, a, c => some (a, c)
  | n + 1, a, c =>
    match step a c with
    | some (b, e) => growUpTo step n b e
    | none => some (a, c)

def grow (step : α → Parser α) (a : α) : Parser α := fun c ↦ growUpTo step (c.size + 1) a c

def place : Parser Cursor := fun c ↦ let e := c.next; some (e, e)

def upcoming : Parser (List Char) := fun c ↦ some (c.next.rest, c)

def sameLine : Parser Unit := fun c ↦ if c.breaksLine then none else some ((), c)

def chars (n : Nat) : Parser Unit := fun c ↦ some ((), c.advance n)

def node (kind : Kind) (p : Parser (List Node)) : Parser Node := do
  let s ← place
  let children ← p
  return s.node kind (← get) children

def nodeFrom (s : Cursor) (kind : Kind) (p : Parser (List Node)) : Parser Node := do
  let children ← p
  return s.node kind (← get) children

def punctuators : List String :=
  [">>>=", "...", "===", "!==", "**=", "<<=", ">>=", ">>>", "&&=", "||=", "??=", "=>", "==", "!=",
    "<=", ">=", "&&", "||", "??", "?.", "++", "--", "+=", "-=", "*=", "/=", "%=", "&=", "|=", "^=",
    "<<", ">>", "**"]

/-- A longer punctuator than `s` stands here. A question mark before a decimal point and a digit
stands alone. -/
def continues (s : String) (r : List Char) : Bool :=
  punctuators.any fun p ↦
    s.length < p.length && s.toList.isPrefixOf p.toList && p.toList.isPrefixOf r &&
      !(p == "?." && (r.drop 2).head?.any isDigit)

def sign (s : String) : Parser Unit := do
  let c ← place
  guard (c.startsWith s && !continues s c.rest)
  chars s.length

def mark (s : String) : Parser Unit := do
  let c ← place
  guard (c.startsWith s)
  chars s.length

def signOf (ss : List String) : Parser String := ss.firstM fun s ↦ sign s *> pure s

/-- Length of a character in a name, which may be written by its code; zero when there is none. -/
def nameCharLength : List Char → Nat
  | '\\' :: 'u' :: '\x7b' :: r =>
    let k := (r.takeWhile isHexDigit).length
    if k > 0 && (r.drop k).head? == some '\x7d' then k + 4 else 0
  | '\\' :: 'u' :: a :: b :: c :: d :: _ => if [a, b, c, d].all isHexDigit then 6 else 0
  | c :: _ => if isNameChar c then 1 else 0
  | [] => 0

def nameLength : Nat → List Char → Nat
  | 0, _ => 0
  | n + 1, r =>
    match nameCharLength r with
    | 0 => 0
    | k => k + nameLength n (r.drop k)

def word : Parser String := do
  let c ← place
  guard (c.rest.head?.any fun ch ↦ isNameStart ch || ch == '\\')
  let n := nameLength (c.size + 1) c.rest
  guard (n > 0)
  chars n
  return String.ofList (c.rest.take n)

def keyword (k : String) : Parser Unit := do
  guard ((← word) == k)

def keywordOf (ks : List String) : Parser String := do
  let w ← word
  guard (ks.contains w)
  return w

def token (s : String) : Parser Unit :=
  if s.toList.head?.any isNameStart then keyword s else sign s

def reserved : List String :=
  ["break", "case", "catch", "class", "const", "continue", "debugger", "default", "delete", "do",
    "else", "export", "extends", "false", "finally", "for", "function", "if", "import", "in",
    "instanceof", "new", "null", "return", "super", "switch", "this", "throw", "true", "try",
    "typeof", "var", "void", "while", "with", "yield", "await"]

def name : Parser String := do
  let w ← word
  guard (!reserved.contains w)
  return w

def leaf (kind : Kind) (p : Parser α) : Parser Node := node kind (p *> pure [])

def identifier : Parser Node := do
  let n ← leaf .identifier name
  return if n.text == "undefined" then { n with kind := .undefined } else n

/-- Zero or more items with separators between them, one more allowed at the end. -/
def listOf (p : Parser α) (sep : String := ",") : Parser (List α) :=
  (do
    let a ← p
    let rest ← many (do sign sep; p)
    let _ ← taken (sign sep)
    return a :: rest).orElse []

def listWithHoles (p : Parser α) : Parser (List α) := do
  let a ← optional p
  let rest ← many (do sign ","; optional p)
  return (a :: rest).filterMap id

def semicolon : Parser Unit := fun c ↦
  (sign ";" c) <|> if c.endsStatement then some ((), c) else none

def declarationEnd (g : Grammar) : Parser Unit := fun c ↦
  (sign ";" c) <|>
    if (if g.types then c.endsDeclaration else c.endsStatement) then some ((), c) else none

end Parser

end CommandCoverage.Script
