import CommandCoverage.Script.Parser

namespace CommandCoverage.Script.Parser

def digitsTail (p : Char → Bool) : List Char → Nat
  | '_' :: d :: r => if p d then digitsTail p r + 2 else 0
  | d :: r => if p d then digitsTail p r + 1 else 0
  | [] => 0

def digitsLength (p : Char → Bool) : List Char → Nat
  | d :: r => if p d then digitsTail p r + 1 else 0
  | [] => 0

def exponentLength : List Char → Nat
  | e :: r =>
    if e == 'e' || e == 'E' then
      let k := if r.head? == some '+' || r.head? == some '-' then 1 else 0
      match digitsLength isDigit (r.drop k) with
      | 0 => 0
      | n => n + k + 1
    else 0
  | [] => 0

/-- Length of an integer with a base sign after its zero, an `n` at the end allowed. -/
def basedLength : List Char → Nat
  | b :: r =>
    let p : Char → Bool :=
      if b == 'x' || b == 'X' then isHexDigit
      else if b == 'o' || b == 'O' then fun d ↦ '0' ≤ d && d ≤ '7'
      else if b == 'b' || b == 'B' then fun d ↦ d == '0' || d == '1'
      else fun _ ↦ false
    match digitsLength p r with
    | 0 => 0
    | n => n + 1 + if (r.drop n).head? == some 'n' then 1 else 0
  | [] => 0

/-- The whole part may be followed by a point or an exponent: it has at most one zero ahead. -/
def isPlainInteger : List Char → Bool
  | ['0'] => true
  | '0' :: d :: _ => '1' ≤ d && d ≤ '9'
  | d :: _ => '1' ≤ d && d ≤ '9'
  | [] => false

def numberLength (r : List Char) : Nat :=
  let based := if r.head? == some '0' then basedLength r.tail else 0
  if based > 0 then based + 1
  else
    let k := digitsLength isDigit r
    let after := r.drop k
    if k == 0 then
      match digitsLength isDigit after.tail with
      | 0 => 0
      | n => if after.head? == some '.' then n + 1 + exponentLength (after.drop (n + 1)) else 0
    else if after.head? == some 'n' then k + 1
    else if isPlainInteger (r.take k) then
      if after.head? == some '.' then
        let n := k + 1 + digitsLength isDigit after.tail
        n + exponentLength (r.drop n)
      else k + exponentLength after
    else k

def span (kind : Kind) (length : List Char → Nat) : Parser Node := leaf kind do
  let c ← get
  let n := length c.rest
  guard (n > 0)
  chars n

def number : Parser Node := span .number numberLength

/-- Length of a quoted text after its opening quote, closing quote included; zero when it does not
end on its line. -/
def quotedLength (q : Char) : Nat → List Char → Nat
  | _, [] => 0
  | n, '\\' :: '\r' :: '\n' :: r => quotedLength q (n + 3) r
  | n, '\\' :: _ :: r => quotedLength q (n + 2) r
  | n, c :: r =>
    if c == q then n + 1 else if c == '\n' || c == '\r' then 0 else quotedLength q (n + 1) r

def string : Parser Node := span .string fun
  | '\"' :: r => quotedLength '\"' 1 r
  | '\'' :: r => quotedLength '\'' 1 r
  | _ => 0

/-- Length of a regular expression after its opening slash, closing slash included. -/
def regexLength (inClass : Bool) : Nat → List Char → Nat
  | _, [] => 0
  | n, '\\' :: c :: r => if c == '\n' then 0 else regexLength inClass (n + 2) r
  | n, c :: r =>
    if c == '\n' then 0
    else if inClass then regexLength (c != ']') (n + 1) r
    else if c == '/' then n + 1
    else regexLength (c == '[') (n + 1) r

def regex : Parser Node := span .regex fun
  | '/' :: r =>
    match regexLength false 1 r with
    | 0 => 0
    | n => n + ((r.drop (n - 1)).takeWhile fun c ↦ 'a' ≤ c && c ≤ 'z').length
  | _ => 0

def escapeLength : List Char → Nat
  | '\\' :: 'u' :: '\x7b' :: r => (r.takeWhile (· != '\x7d')).length + 4
  | '\\' :: 'u' :: _ => 6
  | '\\' :: 'x' :: _ => 4
  | '\\' :: '\r' :: '\n' :: _ => 3
  | '\\' :: r =>
    let digits := (r.take 3).takeWhile fun d ↦ '0' ≤ d && d ≤ '7'
    max 1 digits.length + 1
  | _ => 0

def fragmentLength : Nat → List Char → Nat
  | n, [] => n
  | n, '$' :: '\x7b' :: _ => n
  | n, c :: r => if c == '\x60' || c == '\\' then n else fragmentLength (n + 1) r

def templatePiece (inner : Parser Node) : Parser Node := do
  let c ← get
  match c.rest with
  | '$' :: '\x7b' :: _ =>
    nodeFrom c .substitution do
      chars 2
      let e ← inner
      sign "\x7d"
      return [e]
  | '\\' :: _ => nodeFrom c .escape (chars (escapeLength c.rest) *> pure [])
  | r =>
    let n := fragmentLength 0 r
    guard (n > 0)
    nodeFrom c .stringFragment (chars n *> pure [])

def template (inner : Parser Node) : Parser Node := node .template do
  mark "\x60"
  let pieces ← many (templatePiece inner)
  guard ((← get).rest.head? == some '\x60')
  chars 1
  return pieces

end CommandCoverage.Script.Parser
