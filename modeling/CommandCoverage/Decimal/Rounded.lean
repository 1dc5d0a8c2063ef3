import CommandCoverage.Decimal.Binary

namespace CommandCoverage

def roundQuotient (n d : Nat) : Nat :=
  let q := n / d
  match compare (2 * (n % d)) d with
  | .lt => q
  | .gt => q + 1
  | .eq => if q % 2 == 0 then q else q + 1

def Binary.roundTo (x : Binary) (k : Int) : Decimal :=
  let (n, d) := x.scaled k
  ⟨roundQuotient n d, k⟩

def Decimal.toFloat (d : Decimal) : Float :=
  if d.digits == 0 then 0
  else if d.exponent > 400 then Float.ofScientific 1 false 400
  else if d.exponent + (Nat.log2 d.digits : Int) < -1200 then 0
  else Float.ofScientific d.digits (d.exponent < 0) d.exponent.natAbs

def paddedDigits (n width : Nat) : String :=
  let ds := Nat.repr n
  "".pushn '0' (width - ds.length) ++ ds

/-- A number in tenths, hundredths and so on, with a point before the last `places` digits. -/
def fixedText (n places : Nat) : String :=
  if places == 0 then Nat.repr n
  else Nat.repr (n / Nat.pow 10 places) ++ "." ++ paddedDigits (n % Nat.pow 10 places) places

def signText (x : Float) : String := if x.toBits >>> 63 == 1 then "-" else ""

def fixedPlaces (places : Nat) (x : Float) : String :=
  if x.isNaN then "nan" else if x.isInf then signText x ++ "inf"
  else signText x ++ fixedText ((Binary.ofFloat x).roundTo (-places)).digits places

def roundPlaces (places : Nat) (x : Float) : Float :=
  if x.isNaN || x.isInf then x
  else
    let y := ((Binary.ofFloat x).roundTo (-places)).toFloat
    if x.toBits >>> 63 == 1 then -y else y

end CommandCoverage
