import CommandCoverage.Decimal.Shortest
import CommandCoverage.Script.Literal
import CommandCoverage.Text.Blank

namespace CommandCoverage

inductive FieldFault where
  | notText
  | notInteger
  | unreadableInteger
  | fractional
  | infinite
  | notNumber
  | unreadableNumber
  | notTruth
  | unreadableTruth
  | notAbove
  | below
  | above
  | unknownChoice
  | emptyList
  deriving DecidableEq, Repr

def FieldFault.code : FieldFault → String
  | notText => "string_type"
  | notInteger => "int_type"
  | unreadableInteger => "int_parsing"
  | fractional => "int_from_float"
  | infinite => "finite_number"
  | notNumber => "float_type"
  | unreadableNumber => "float_parsing"
  | notTruth => "bool_type"
  | unreadableTruth => "bool_parsing"
  | notAbove => "greater_than"
  | below => "greater_than_equal"
  | above => "less_than_equal"
  | unknownChoice => "literal_error"
  | emptyList => "value_error"

namespace Field

/-- Blanks around a number, which the separators among the control characters are not. -/
def isPadding (c : Char) : Bool := Text.isBlank c && !('\x1c' ≤ c && c ≤ '\x1f')

def withoutPadding (cs : List Char) : List Char :=
  ((cs.dropWhile isPadding).reverse.dropWhile isPadding).reverse

def withoutUnderscores (ds : List Char) : Option (List Char) :=
  if ds.head? == some '_' || ds.getLast? == some '_' ||
      (ds.zip ds.tail).any (fun (a, b) ↦ a == '_' && b == '_') then none
  else some (ds.filter (· != '_'))

def takeSign : List Char → Bool × List Char
  | '-' :: r => (true, r)
  | '+' :: r => (false, r)
  | r => (false, r)

def integerOfText (s : String) : Option Int := do
  let (negative, r) := takeSign (withoutPadding s.toList)
  let whole := r.takeWhile (· != '.')
  guard ((r.drop (whole.length + 1)).all (· == '0'))
  let n ← Script.digitsValue 10 (← withoutUnderscores whole)
  return if negative then -n else n

def specialNumber (w : String) : Option Float :=
  match w with
  | "inf" | "infinity" => some (1 / 0)
  | "nan" => some (0 / 0)
  | _ => none

def numberOfText (s : String) : Option Float := do
  let (negative, r) := takeSign (withoutPadding s.toList)
  let x ← specialNumber (String.ofList r).toLower <|>
    ((withoutUnderscores r).bind Script.decimalValue).map (·.toFloat)
  return if negative then -x else x

def integerOfFloat (x : Float) : Except FieldFault Int :=
  if x.isNaN || x.isInf then .error .infinite
  else
    let (n, d) := (Binary.ofFloat x).scaled 0
    if n % d == 0 then .ok (if x < 0 then -(n / d : Nat) else (n / d : Nat))
    else .error .fractional

def text : Value → Except FieldFault String
  | .text s => .ok s
  | _ => .error .notText

def integer : Value → Except FieldFault Int
  | .int n => .ok n
  | .bool b => .ok (if b then 1 else 0)
  | .float x => integerOfFloat x
  | .text s =>
    match integerOfText s with
    | some n => .ok n
    | none => .error .unreadableInteger
  | _ => .error .notInteger

def number : Value → Except FieldFault Float
  | .int n => .ok (Float.ofInt n)
  | .bool b => .ok (if b then 1 else 0)
  | .float x => .ok x
  | .text s =>
    match numberOfText s with
    | some x => .ok x
    | none => .error .unreadableNumber
  | _ => .error .notNumber

def truthOfInteger (n : Int) : Except FieldFault Bool :=
  if n == 0 then .ok false else if n == 1 then .ok true else .error .unreadableTruth

def truth : Value → Except FieldFault Bool
  | .bool b => .ok b
  | .int n => truthOfInteger n
  | .float x =>
    match integerOfFloat x with
    | .ok n => truthOfInteger n
    | .error _ => .error .notTruth
  | .text s =>
    let w := s.toLower
    if ["0", "off", "f", "false", "n", "no"].contains w then .ok false
    else if ["1", "on", "t", "true", "y", "yes"].contains w then .ok true
    else .error .unreadableTruth
  | _ => .error .notTruth

def atLeast (least : Nat) (v : Value) : Except FieldFault Nat := do
  let n ← integer v
  if n < least then .error .below else .ok n.toNat

def positive (v : Value) : Except FieldFault Nat := do
  let n ← integer v
  if n ≤ 0 then .error .notAbove else .ok n.toNat

def positiveNumber (v : Value) : Except FieldFault Float := do
  let x ← number v
  if x > 0 then .ok x else .error .notAbove

def percentage (v : Value) : Except FieldFault Float := do
  let x ← number v
  if !(x ≤ 100) then .error .above
  else if !(x ≥ 0) then .error .below
  else .ok x

end Field

end CommandCoverage
