/-!
# Reading decimals

A numeral is an optional sign, digits with at most one point, at least one digit in all, and an
optional power of ten.  Its value is the double nearest to the number it writes.
-/

namespace Lindenmayer.Decimal

/-- A decimal as written, `± digits * 10 ^ exponent`. -/
structure Numeral where
  negative : Bool
  digits : Nat
  exponent : Int
  deriving DecidableEq

namespace Numeral

/-- The number written by decimal digits. -/
def valueOf (digits : List Char) : Nat :=
  digits.foldl (fun value c => 10 * value + (c.toNat - '0'.toNat)) 0

/-- Splits off a sign; the flag tells whether it is a minus. -/
def splitSign : List Char → Bool × List Char
  | '-' :: cs => (true, cs)
  | '+' :: cs => (false, cs)
  | cs => (false, cs)

/-- Splits off the digits after a point, if a point comes first. -/
def splitFraction : List Char → List Char × List Char
  | '.' :: cs => (cs.takeWhile Char.isDigit, cs.dropWhile Char.isDigit)
  | cs => ([], cs)

/-- Reads what follows the digits: nothing, or a power of ten. -/
def power? : List Char → Option Int
  | [] => some 0
  | c :: cs =>
    let (negative, digits) := splitSign cs
    if (c == 'e' || c == 'E') && !digits.isEmpty && digits.all Char.isDigit then
      let size : Int := valueOf digits
      some (if negative then -size else size)
    else
      none

/-- Reads a numeral. -/
def parse? (cs : List Char) : Option Numeral :=
  let (negative, cs) := splitSign cs
  let whole := cs.takeWhile Char.isDigit
  let (fraction, cs) := splitFraction (cs.dropWhile Char.isDigit)
  if whole.isEmpty && fraction.isEmpty then
    none
  else
    (power? cs).map fun power =>
      ⟨negative, valueOf (whole ++ fraction), power - fraction.length⟩

/-- The double nearest to the size of a numeral.  Sizes far beyond the range of doubles are
settled by their order of magnitude alone. -/
def size (n : Numeral) : Float :=
  let order := (n.digits.log2 : Int) * 30103 / 100000 + n.exponent
  if n.digits = 0 || order < -400 then
    0
  else if 400 < order then
    Float.ofBits 0x7ff0000000000000
  else
    Float.ofScientific n.digits (n.exponent < 0) n.exponent.natAbs

/-- The double nearest to a numeral. -/
def toFloat (n : Numeral) : Float := if n.negative then -n.size else n.size

end Numeral

/-- The value of a text that is a numeral. -/
def read? (cs : List Char) : Option Float := (Numeral.parse? cs).map Numeral.toFloat

end Lindenmayer.Decimal
