/-!
# Shortest decimals

Every finite double is an integer times a power of two.  The reals that round to it form an
interval around it, and the shortest decimal that reads back is the point of the coarsest decimal
grid that meets this interval: among two points of that grid the nearer one, and on an exact tie
the larger one.  All of it is computed in integers.
-/

namespace Lindenmayer.Decimal

/-- The size of a finite double, `mantissa * 2 ^ exponent`. -/
structure Magnitude where
  mantissa : Nat
  exponent : Int
  deriving DecidableEq

/-- A decimal, `digits * 10 ^ exponent`. -/
structure Scaled where
  digits : Nat
  exponent : Int
  deriving DecidableEq

namespace Magnitude

/-- The number of values of the fraction field of a double, which is `2 ^ 52`.  A full mantissa is
this number plus the fraction. -/
def fractionCount : Nat := 4503599627370496

/-- The size of a finite double, taken from its fraction and exponent fields. -/
def ofFloat (x : Float) : Magnitude :=
  let bits := x.toBits.toNat
  let field : Nat := bits / fractionCount % 2048
  let fraction : Nat := bits % fractionCount
  if field = 0 then ⟨fraction, -1074⟩ else ⟨fractionCount + fraction, field - 1075⟩

/-- The distance to the lower end of the rounding interval, in quarters of the last binary place.
It is half a place, except just above a power of two, where the doubles below lie twice as
close. -/
def lowerGap (v : Magnitude) : Nat :=
  if v.mantissa = fractionCount ∧ -1074 < v.exponent then 1 else 2

/-- The number of steps of size `10 ^ place` that comes nearest to `v`, if one of the two grid
points around `v` rounds to `v`.  The ends of the rounding interval belong to it when the mantissa
is even. -/
def stepsAt (v : Magnitude) (place : Int) : Option Nat :=
  let quarters := v.exponent - 2
  let unit := Nat.pow 2 quarters.toNat * Nat.pow 10 (-place).toNat
  let grid := Nat.pow 10 place.toNat * Nat.pow 2 (-quarters).toNat
  let value := 4 * v.mantissa * unit
  let lower := (4 * v.mantissa - v.lowerGap) * unit
  let upper := (4 * v.mantissa + 2) * unit
  let inside (x : Nat) : Bool :=
    if v.mantissa % 2 = 0 then lower ≤ x && x ≤ upper else lower < x && x < upper
  let steps := value / grid
  match inside (steps * grid), inside ((steps + 1) * grid) with
  | true, true => if 2 * (value % grid) < grid then some steps else some (steps + 1)
  | true, false => some steps
  | false, true => some (steps + 1)
  | false, false => none

/-- Tries the places from `place` downwards; at most `tries` of them may fail. -/
def coarsest (v : Magnitude) : Nat → Int → Scaled
  | 0, place => ⟨(v.stepsAt place).getD 0, place⟩
  | tries + 1, place =>
    match v.stepsAt place with
    | some steps => ⟨steps, place⟩
    | none => coarsest v tries (place - 1)

/-- The shortest decimal that reads back as `v`.  The search starts above the leading digit and
ends at the latest where `v` itself lies on the grid. -/
def shortest (v : Magnitude) : Scaled :=
  let top := (v.mantissa.log2 + 1 + v.exponent) * 1233 / 4096 + 1
  v.coarsest (top - min v.exponent 0).toNat top

end Magnitude

end Lindenmayer.Decimal
