namespace CommandCoverage

structure Decimal where
  digits : Nat
  exponent : Int
  deriving DecidableEq, Repr

/-- The number `mantissa * 2 ^ exponent`, with the reals that round to it. -/
structure Binary where
  mantissa : Nat
  exponent : Int
  narrowBelow : Bool
  deriving DecidableEq, Repr

namespace Binary

def ofBits (b : UInt64) : Binary :=
  let e := ((b >>> 52) &&& 0x7FF).toNat
  let f := (b &&& 0xFFFFFFFFFFFFF).toNat
  if e == 0 then ⟨f, -1074, false⟩ else ⟨Nat.pow 2 52 + f, (e : Int) - 1075, f == 0 && e > 1⟩

def ofFloat (x : Float) : Binary := ofBits x.toBits

end Binary

def compareScaled (a : Nat) (i : Int) (n : Nat) (j : Int) : Ordering :=
  compare (a * Nat.pow 10 i.toNat * Nat.pow 2 (-j).toNat)
    (n * Nat.pow 2 j.toNat * Nat.pow 10 (-i).toNat)

namespace Binary

/-- The decimal lies among the reals that round to `x`, ties going to even mantissas. -/
def readsBack (x : Binary) (d : Decimal) : Bool :=
  let low := if x.narrowBelow then 4 * x.mantissa - 1 else 4 * x.mantissa - 2
  let ends := x.mantissa % 2 == 0
  let below := compareScaled d.digits d.exponent low (x.exponent - 2)
  let above := compareScaled d.digits d.exponent (4 * x.mantissa + 2) (x.exponent - 2)
  (below == .gt || (ends && below == .eq)) && (above == .lt || (ends && above == .eq))

def scaled (x : Binary) (k : Int) : Nat × Nat :=
  (x.mantissa * Nat.pow 2 x.exponent.toNat * Nat.pow 10 (-k).toNat,
    Nat.pow 2 (-x.exponent).toNat * Nat.pow 10 k.toNat)

def below (x : Binary) (k : Int) : Bool :=
  let (n, d) := x.scaled k
  n < d

/-- The least `k` from `low` on, within `n` steps, with the value below `10 ^ k`. -/
def scaleFrom (x : Binary) : Nat → Int → Int
  | 0, k => k
  | n + 1, k => if x.below k then k else scaleFrom x n (k + 1)

def scale (x : Binary) : Int :=
  let bits : Int := x.mantissa.log2 + x.exponent
  x.scaleFrom 4 (bits * 30103 / 100000 - 1)

end Binary

end CommandCoverage
