import CommandCoverage.Script.Program
import CommandCoverage.Decimal.Rounded

namespace CommandCoverage

inductive Value where
  | null
  | bool (b : Bool)
  | int (n : Int)
  | float (x : Float)
  | text (s : String)
  | list (vs : List Value)
  deriving Inhabited, Repr

namespace Script

def isTransparent : Kind → Bool
  | .parenthesized | .await | .asType | .satisfies | .nonNull | .typeAssertion => true
  | _ => false

namespace Node

mutual

def unwrap : Node → Node
  | ⟨k, r, l, a, b, t, cs⟩ =>
    if isTransparent k then unwrapFirst ⟨k, r, l, a, b, t, cs⟩ cs else ⟨k, r, l, a, b, t, cs⟩

def unwrapFirst (outer : Node) : List Node → Node
  | [] => outer
  | n :: ns => if n.kind == .comment then unwrapFirst outer ns else n.unwrap

end

end Node

def hexValue (ds : List Char) : Nat :=
  ds.foldl (fun n d ↦ 16 * n + if isDigit d then d.toNat - 48 else d.toNat % 32 + 9) 0

def simpleEscape : Char → List Nat
  | 'n' => [10]
  | 't' => [9]
  | 'r' => [13]
  | '0' => [0]
  | 'b' => [8]
  | 'f' => [12]
  | 'v' => [11]
  | c => if isLineBreak c then [] else [c.toNat]

/-- The code that an escape after its backslash writes, and its length. None where it writes no
code by number. -/
def codeEscape : List Char → Option (Nat × Nat)
  | 'u' :: '\x7b' :: r =>
    let ds := r.takeWhile isHexDigit
    if !ds.isEmpty && (r.drop ds.length).head? == some '\x7d' then
      some (hexValue ds, ds.length + 3)
    else none
  | 'u' :: a :: b :: c :: d :: _ =>
    if [a, b, c, d].all isHexDigit then some (hexValue [a, b, c, d], 5) else none
  | 'x' :: a :: b :: _ => if [a, b].all isHexDigit then some (hexValue [a, b], 3) else none
  | _ => none

/-- The codes that a text with escapes stands for. Surrogates stay as they are written, and a code
above the largest stays as its text. -/
def codesUpTo : Nat → List Char → List Nat
  | 0, _ => []
  | _ + 1, [] => []
  | n + 1, '\\' :: r =>
    match codeEscape r with
    | some (code, k) =>
      (if code ≤ 0x10ffff then [code] else 92 :: (r.take k).map Char.toNat) ++
        codesUpTo n (r.drop k)
    | none =>
      match r with
      | [] => [92]
      | '\r' :: '\n' :: r => codesUpTo n r
      | c :: r => simpleEscape c ++ codesUpTo n r
  | n + 1, c :: r => c.toNat :: codesUpTo n r

def isHighSurrogate (n : Nat) : Bool := 0xd800 ≤ n && n ≤ 0xdbff

def isLowSurrogate (n : Nat) : Bool := 0xdc00 ≤ n && n ≤ 0xdfff

/-- Joins surrogates in pairs; one without a partner becomes the replacement character. -/
def joinSurrogates : List Nat → List Char
  | [] => []
  | [a] => [if isHighSurrogate a || isLowSurrogate a then '\ufffd' else Char.ofNat a]
  | a :: b :: r =>
    if isHighSurrogate a && isLowSurrogate b then
      Char.ofNat (0x10000 + (a - 0xd800) * 0x400 + (b - 0xdc00)) :: joinSurrogates r
    else
      (if isHighSurrogate a || isLowSurrogate a then '\ufffd' else Char.ofNat a) ::
        joinSurrogates (b :: r)

def decode (raw : List Char) : List Char := joinSurrogates (codesUpTo (raw.length + 1) raw)

def unquoted (n : Node) : String := String.ofList (decode (n.text.toList.drop 1).dropLast)

/-- The value of a string, or of a template without substitutions. -/
def stringValue (n : Node) : Option String :=
  let n := n.unwrap
  match n.kind with
  | .string => some (unquoted n)
  | .template => if n.children.any (·.kind == .substitution) then none else some (unquoted n)
  | _ => none

/-- The digits of an integer in a base, when there is at least one and all are allowed. -/
def digitsValue (base : Nat) (ds : List Char) : Option Nat :=
  let value (d : Char) : Nat :=
    if isDigit d then d.toNat - 48 else if isHexDigit d then d.toNat % 32 + 9 else 99
  if ds.isEmpty || ds.any (fun d ↦ base ≤ value d) then none
  else some (ds.foldl (fun n d ↦ base * n + value d) 0)

def longestInteger : Nat := 4300

/-- An integer with the sign of its base, or a decimal one without needless zeros. -/
def integerValue (ds : List Char) : Option Nat :=
  match ds with
  | '0' :: b :: r =>
    if b == 'x' || b == 'X' then digitsValue 16 r
    else if b == 'o' || b == 'O' then digitsValue 8 r
    else if b == 'b' || b == 'B' then digitsValue 2 r
    else if ds.all (· == '0') then some 0
    else none
  | _ => if ds.length ≤ longestInteger then digitsValue 10 ds else none

def decimalValue (ds : List Char) : Option Decimal := do
  let whole := ds.takeWhile isDigit
  let rest := ds.drop whole.length
  let fraction := if rest.head? == some '.' then rest.tail.takeWhile isDigit else []
  let rest := if rest.head? == some '.' then rest.drop (fraction.length + 1) else rest
  let exponent : Int ←
    match rest with
    | [] => some 0
    | e :: r =>
      if e != 'e' && e != 'E' then none
      else
        match r with
        | '-' :: r => (digitsValue 10 r).map fun n ↦ -(n : Int)
        | '+' :: r => (digitsValue 10 r).map Int.ofNat
        | r => (digitsValue 10 r).map Int.ofNat
  let digits ← digitsValue 10 (whole ++ fraction)
  return ⟨digits, exponent - fraction.length⟩

def numberValue (raw : String) : Option Value :=
  let ds := raw.toList.filter (· != '_')
  match integerValue ds with
  | some n => some (.int n)
  | none => (decimalValue ds).map fun d ↦ .float d.toFloat

def negated : Value → Option Value
  | .bool b => some (.int (if b then -1 else 0))
  | .int n => some (.int (-n))
  | .float x => some (.float (-x))
  | _ => none

mutual

/-- The value of a literal, none where the node is no literal. -/
def literalValue : Node → Option Value
  | ⟨k, r, l, a, b, t, cs⟩ =>
    if isTransparent k then literalFirst ⟨k, r, l, a, b, t, cs⟩ cs
    else
      match k with
      | .string | .template => (stringValue ⟨k, r, l, a, b, t, cs⟩).map .text
      | .trueLiteral => some (.bool true)
      | .falseLiteral => some (.bool false)
      | .nullLiteral => some .null
      | .number => numberValue t
      | .unary => if t.toList.head? == some '-' then (literalHead cs).bind negated else none
      | .array => (literalAll cs).map .list
      | _ => none

def literalFirst (outer : Node) : List Node → Option Value
  | [] => none
  | n :: ns => if n.kind == .comment then literalFirst outer ns else literalValue n

def literalHead : List Node → Option Value
  | [] => none
  | n :: _ => literalValue n

def literalAll : List Node → Option (List Value)
  | [] => some []
  | n :: ns =>
    if n.kind == .comment then literalAll ns
    else do
      let v ← literalValue n
      let vs ← literalAll ns
      return v :: vs

end

end Script

end CommandCoverage
