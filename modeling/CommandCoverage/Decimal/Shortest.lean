import CommandCoverage.Decimal.Rounded

namespace CommandCoverage

namespace Binary

def candidate (x : Binary) (k : Int) : Option Decimal :=
  let (n, d) := x.scaled k
  let lower : Decimal := ⟨n / d, k⟩
  let upper : Decimal := ⟨n / d + 1, k⟩
  match x.readsBack lower, x.readsBack upper with
  | true, true =>
    some (match compare (2 * (n % d)) d with
      | .lt => lower
      | .gt => upper
      | .eq => if lower.digits % 2 == 0 then lower else upper)
  | true, false => some lower
  | false, true => some upper
  | false, false => none

def candidateFrom (x : Binary) : Nat → Int → Option Decimal
  | 0, _ => none
  | n + 1, k => x.candidate k <|> candidateFrom x n (k - 1)

def shortest (x : Binary) : Decimal :=
  if x.mantissa == 0 then ⟨0, 0⟩
  else
    match x.candidateFrom 17 (x.scale - 1) with
    | some d => d
    | none =>
      let (n, d) := x.scaled 0
      if d == 1 then ⟨n, 0⟩ else ⟨x.mantissa * Nat.pow 5 (-x.exponent).toNat, x.exponent⟩

end Binary

def dropTrailingZeros (ds : List Char) : List Char := (ds.reverse.dropWhile (· == '0')).reverse

structure Notation where
  /-- Decimal exponents from `-4` up to this one, which is left out, are written by place. -/
  placesBelow : Int
  wholeMark : String

namespace Notation

/-- Digits with the point after the first, and an exponent of two digits at least. -/
def scientific (ds : List Char) (e : Int) : String :=
  let fraction := ds.drop 1
  String.ofList (ds.take 1) ++ (if fraction.isEmpty then "" else "." ++ String.ofList fraction) ++
    (if e < 0 then "e-" else "e+") ++ paddedDigits e.natAbs 2

def positional (f : Notation) (ds : List Char) (e : Int) : String :=
  if e < 0 then "0." ++ "".pushn '0' (-e - 1).toNat ++ String.ofList ds
  else
    let k := e.toNat + 1
    let whole := String.ofList (ds.take k) ++ "".pushn '0' (k - ds.length)
    let fraction := ds.drop k
    if fraction.isEmpty then whole ++ f.wholeMark else whole ++ "." ++ String.ofList fraction

def decimal (f : Notation) (d : Decimal) : String :=
  if d.digits == 0 then "0" ++ f.wholeMark
  else
    let ds := (Nat.repr d.digits).toList
    let e : Int := ds.length + d.exponent - 1
    let ds := dropTrailingZeros ds
    if -4 ≤ e && e < f.placesBelow then f.positional ds e else scientific ds e

def magnitude (f : Notation) (x : Float) (d : Binary → Decimal) : String :=
  if x.isNaN then "nan" else if x.isInf then signText x ++ "inf"
  else signText x ++ f.decimal (d (Binary.ofFloat x))

end Notation

/-- Floats are written with the fewest digits that read back, a whole number with `.0`. -/
def exactNotation : Notation := { placesBelow := 16, wholeMark := ".0" }

def floatText (x : Float) : String := exactNotation.magnitude x Binary.shortest

def targetNotation : Notation := { placesBelow := 6, wholeMark := "" }

def targetText (x : Float) : String :=
  targetNotation.magnitude x fun b ↦ b.roundTo (b.scale - 6)

end CommandCoverage
