import Lindenmayer.Decimal.Shortest

/-!
# Decimal text of a double

Doubles are written with the fewest digits that read back, always positionally: no exponent, no
point in a whole number, a sign on negative zero.
-/

namespace Lindenmayer.Decimal

/-- The digits of a decimal with the point set where it belongs. -/
def Scaled.positional (d : Scaled) : List Char :=
  let digits := Nat.toDigits 10 d.digits
  let places := (-d.exponent).toNat
  if places = 0 then
    digits ++ List.replicate d.exponent.toNat '0'
  else if digits.length ≤ places then
    '0' :: '.' :: (List.replicate (places - digits.length) '0' ++ digits)
  else
    digits.take (digits.length - places) ++ '.' :: digits.drop (digits.length - places)

/-- The text of the size of a finite double. -/
def Magnitude.text (v : Magnitude) : List Char :=
  if v.mantissa = 0 then ['0'] else v.shortest.positional

/-- Whether the sign of a double is negative, which is so for `-0` too. -/
def isNegative (x : Float) : Bool := x.toBits >>> 63 == 1

/-- The text of a double. -/
def text (x : Float) : String :=
  if x.isNaN then
    "NaN"
  else
    let size := if x.isInf then ['i', 'n', 'f'] else (Magnitude.ofFloat x).text
    String.ofList (if isNegative x then '-' :: size else size)

end Lindenmayer.Decimal
