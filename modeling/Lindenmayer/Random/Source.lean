/-!
# Random sources

A random source hands out 64-bit words, one after another.  Two kinds of draw are made from it: a
number in the unit interval, from one word, and a whole number below a bound, from as many words
as it takes to find one that is not rejected.
-/

namespace Lindenmayer

/-- A state from which 64-bit words can be drawn without end. -/
class WordSource (G : Type) where
  /-- The next word, and the state after it. -/
  next : G → UInt64 × G

namespace WordSource

variable {G : Type} [WordSource G]

/-- The state after `count` words have been drawn. -/
def advance : Nat → G → G
  | 0, source => source
  | count + 1, source => advance count (next source).2

/-- The number in `[0, 1)` that a word stands for: its upper 53 bits as a binary fraction. -/
def unitOfWord (word : UInt64) : Float := (word >>> 11).toFloat / 9007199254740992.0

/-- Draws a number from the unit interval. -/
def unitDraw (source : G) : Float × G :=
  let (word, source) := next source
  (unitOfWord word, source)

/-- The largest lower half of a product with `bound` that is accepted: one less than the greatest
power-of-two multiple of `bound` that a word can hold. -/
def acceptedUpTo (bound : UInt64) : UInt64 := (bound <<< (63 - bound.log2)) - 1

/-- Draws words until the lower half of the product of one with `bound` is accepted, and returns
the upper half, which is below `bound`.  A draw has no limit of its own: the 0 after `tries`
rejections in a row stands for one that goes on and on and does not return. -/
def belowWithin (bound : Nat) : Nat → G → Nat × G
  | 0, source => (0, source)
  | tries + 1, source =>
    let (word, source) := next source
    if word * bound.toUInt64 ≤ acceptedUpTo bound.toUInt64 then
      ((word.toNat * bound) >>> 64, source)
    else
      belowWithin bound tries source

theorem belowWithin_lt (bound tries : Nat) (source : G) (positive : 0 < bound) :
    (belowWithin bound tries source).1 < bound := by
  induction tries generalizing source with
  | zero => exact positive
  | succ tries ih =>
    simp only [belowWithin]
    split
    · have word := (next source).1.toNat_lt
      rw [Nat.shiftRight_eq_div_pow, Nat.div_lt_iff_lt_mul (Nat.two_pow_pos 64), Nat.mul_comm]
      exact Nat.mul_lt_mul_of_pos_left word positive
    · exact ih _

/-- A draw that meets more rejections in a row than there are words counts as one that does not
return. -/
def maxTries : Nat := UInt64.size

/-- Draws a whole number below `bound`. -/
def below (bound : Nat) (source : G) : Nat × G := belowWithin bound maxTries source

theorem below_lt (bound : Nat) (source : G) (positive : 0 < bound) :
    (below bound source).1 < bound :=
  belowWithin_lt bound maxTries source positive

end WordSource

/-- A random source together with the number of words drawn from it. -/
structure Metered (G : Type) where
  source : G
  used : Nat

instance {G : Type} [WordSource G] : WordSource (Metered G) where
  next metered :=
    let (word, source) := WordSource.next metered.source
    (word, ⟨source, metered.used + 1⟩)

end Lindenmayer
