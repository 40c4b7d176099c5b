import Mathlib.Algebra.Order.Field.Power
import Mathlib.Data.Nat.Cast.Order.Field
import Mathlib.Tactic.FieldSimp
import Mathlib.Tactic.Linarith
import Mathlib.Tactic.NormNum
import Mathlib.Tactic.Positivity
import Mathlib.Tactic.Ring
import Lindenmayer.Proofs.Decimal.Packing

/-!
# Rounding to the nearest double

The reals that round to a double form an interval around it.  Whatever way a number in this interval
is held, as an integer times a power of two with a note on what was cut off, it is rounded to that
double.
-/

open Float.Model Float.Model.UnpackedFloat

namespace Lindenmayer.Decimal

/-! ### Extended mantissas -/

/-- The mantissa is the whole part of a number.  The round bit tells whether the rest is at least a
half, and the sticky bit whether it is neither nothing nor exactly a half. -/
structure Holds (em : ExtendedMantissa) (q : ℚ) : Prop where
  le : em.mantissa ≤ q
  lt : q < em.mantissa + 1
  round : em.roundBit = true ↔ em.mantissa + 1 / 2 ≤ q
  sticky : em.stickyBit = true ↔ (em.mantissa : ℚ) ≠ q ∧ (em.mantissa : ℚ) + 1 / 2 ≠ q

/-- The integer is nearest to a number; of two that are equally near it is the even one. -/
structure IsNearest (n : ℕ) (q : ℚ) : Prop where
  lower : n - 1 / 2 ≤ q
  upper : q ≤ n + 1 / 2
  tie : q = n - 1 / 2 ∨ q = n + 1 / 2 → n % 2 = 0

/-- An integer that is nearest to a number is one of the two around it. -/
theorem IsNearest.eq_or_succ_eq {n m : ℕ} {q : ℚ} (nearest : IsNearest n q) (le : m ≤ q)
    (lt : q < m + 1) : m = n ∨ m + 1 = n := by
  obtain ⟨lower, upper, -⟩ := nearest
  have least : m < n + 1 := by
    have : (m : ℚ) < n + 1 := by linarith
    exact_mod_cast this
  have greatest : n < m + 2 := by
    have : (n : ℚ) < m + 2 := by linarith
    exact_mod_cast this
  omega

/-- Rounding a mantissa leads to the nearest integer. -/
theorem Holds.roundedMantissa_eq {em : ExtendedMantissa} {q : ℚ} (holds : Holds em q) {n : ℕ}
    (nearest : IsNearest n q) : em.roundedMantissa = n := by
  obtain ⟨m, round, sticky⟩ := em
  obtain ⟨le, lt, rounds, sticks⟩ := holds
  dsimp only at le lt rounds sticks
  have apart := nearest.eq_or_succ_eq le lt
  obtain ⟨lower, upper, tie⟩ := nearest
  cases round with
  | false =>
    -- Less than a half is cut off.
    have small : ¬(m : ℚ) + 1 / 2 ≤ q := fun half => Bool.false_ne_true (rounds.mpr half)
    have same : m = n := by
      refine apart.resolve_right ?_
      rintro rfl
      push_cast at lower
      exact small (by linarith)
    cases sticky <;> exact same
  | true =>
    have half := rounds.mp rfl
    cases sticky with
    | false =>
      -- Exactly a half is cut off, and the even one of the two neighbours is chosen.
      have exactly : q = m + 1 / 2 := by
        by_contra other
        exact Bool.false_ne_true
          (sticks.mpr ⟨fun equal => by linarith, fun equal => other equal.symm⟩)
      have even : n % 2 = 0 := by
        rcases apart with rfl | rfl
        · exact tie (Or.inr exactly)
        · refine tie (Or.inl ?_)
          push_cast
          linarith
      show m + m % 2 = n
      omega
    | true =>
      have beyond := (sticks.mp rfl).2
      refine apart.resolve_left ?_
      rintro rfl
      exact beyond (le_antisymm half upper)

/-- The two bits together tell whether anything is cut off. -/
theorem Holds.inexact {em : ExtendedMantissa} {q : ℚ} (holds : Holds em q) :
    (em.roundBit || em.stickyBit) = true ↔ (em.mantissa : ℚ) ≠ q := by
  rw [Bool.or_eq_true, holds.round, holds.sticky]
  constructor
  · rintro (half | ⟨apart, -⟩) equal
    · linarith
    · exact apart equal
  · intro apart
    by_cases half : (em.mantissa : ℚ) + 1 / 2 ≤ q
    · exact Or.inl half
    · exact Or.inr ⟨apart, fun equal => half equal.le⟩

/-- Cutting off one more bit halves the number. -/
theorem Holds.shiftRightOne {em : ExtendedMantissa} {q : ℚ} (holds : Holds em q) :
    Holds em.shiftRightOne (q / 2) := by
  have rest := holds.inexact
  obtain ⟨m, round, sticky⟩ := em
  obtain ⟨le, lt, -, -⟩ := holds
  dsimp only at le lt rest
  have whole : (m : ℚ) = 2 * (m / 2 : ℕ) + (m % 2 : ℕ) := by
    exact_mod_cast (Nat.div_add_mod m 2).symm
  rcases Nat.mod_two_eq_zero_or_one m with even | odd
  · rw [even, Nat.cast_zero, add_zero] at whole
    refine ⟨?_, ?_, ?_, rest.trans ?_⟩ <;> dsimp only [ExtendedMantissa.shiftRightOne]
    · linarith
    · linarith
    · simp only [even]
      constructor
      · intro odd
        cases odd
      · intro half
        linarith
    · constructor
      · exact fun apart => ⟨fun equal => apart (by linarith), fun equal => by linarith⟩
      · rintro ⟨apart, -⟩ equal
        exact apart (by linarith)
  · rw [odd, Nat.cast_one] at whole
    refine ⟨?_, ?_, ?_, rest.trans ?_⟩ <;> dsimp only [ExtendedMantissa.shiftRightOne]
    · linarith
    · linarith
    · simp only [odd]
      exact iff_of_true rfl (by linarith)
    · constructor
      · exact fun apart => ⟨fun equal => by linarith, fun equal => apart (by linarith)⟩
      · rintro ⟨-, apart⟩ equal
        exact apart (by linarith)

theorem Holds.shiftRight {em : ExtendedMantissa} {q : ℚ} (holds : Holds em q) (count : ℕ) :
    Holds (em >>> count) (q / 2 ^ count) := by
  show Holds (count.repeat ExtendedMantissa.shiftRightOne em) _
  induction count with
  | zero => simpa [Nat.repeat] using holds
  | succ count ih =>
    rw [Nat.repeat, pow_succ, ← div_div]
    exact ih.shiftRightOne

/-! ### Rounding intervals -/

namespace Magnitude

/-- The number that a size stands for. -/
def value (v : Magnitude) : ℚ := v.mantissa * 2 ^ v.exponent

theorem value_nonneg (v : Magnitude) : 0 ≤ v.value := by
  unfold value
  positivity

theorem value_pos_iff {v : Magnitude} : 0 < v.value ↔ 0 < v.mantissa := by
  unfold value
  rw [mul_pos_iff_of_pos_right (by positivity), Nat.cast_pos]

theorem value_of_mantissa_eq_zero {v : Magnitude} (zero : v.mantissa = 0) : v.value = 0 := by
  rw [value, zero, Nat.cast_zero, zero_mul]

theorem value_zero : zero.value = 0 := value_of_mantissa_eq_zero rfl

/-- A number lies in the rounding interval of a size.  The ends belong to the interval if the
mantissa is even. -/
structure Captures (v : Magnitude) (r : ℚ) : Prop where
  lower : (v.mantissa - v.lowerGap / 4) * 2 ^ v.exponent ≤ r
  upper : r ≤ (v.mantissa + 1 / 2) * 2 ^ v.exponent
  ends : r = (v.mantissa - v.lowerGap / 4) * 2 ^ v.exponent ∨
    r = (v.mantissa + 1 / 2) * 2 ^ v.exponent → v.mantissa % 2 = 0

theorem lowerGap_cases (v : Magnitude) :
    v.lowerGap = 2 ∨ v.lowerGap = 1 ∧ v.mantissa = 2 ^ 52 ∧ -1074 < v.exponent := by
  unfold lowerGap
  split
  · rename_i above
    exact Or.inr ⟨rfl, above⟩
  · exact Or.inl rfl

theorem lowerGap_pos (v : Magnitude) : 0 < v.lowerGap := by
  rcases v.lowerGap_cases with two | ⟨one, -⟩ <;> omega

theorem lowerGap_le_two (v : Magnitude) : v.lowerGap ≤ 2 := by
  rcases v.lowerGap_cases with two | ⟨one, -⟩ <;> omega

/-- A size lies in its own rounding interval. -/
theorem captures_value (v : Magnitude) : v.Captures v.value := by
  unfold value
  have unit : (0 : ℚ) < 2 ^ v.exponent := by positivity
  have gap : (0 : ℚ) < v.lowerGap := by exact_mod_cast v.lowerGap_pos
  have below : (v.mantissa - v.lowerGap / 4) * 2 ^ v.exponent < (v.mantissa * 2 ^ v.exponent : ℚ) :=
    mul_lt_mul_of_pos_right (by linarith) unit
  have above : (v.mantissa * 2 ^ v.exponent : ℚ) < (v.mantissa + 1 / 2) * 2 ^ v.exponent :=
    mul_lt_mul_of_pos_right (by linarith) unit
  exact ⟨below.le, above.le, fun ends => absurd ends (not_or.mpr ⟨below.ne', above.ne⟩)⟩

/-- At the exponent of a size, its mantissa is nearest to what its interval holds. -/
theorem Captures.isNearest {v : Magnitude} {r : ℚ} (captures : v.Captures r) :
    IsNearest v.mantissa (r / 2 ^ v.exponent) := by
  obtain ⟨lower, upper, ends⟩ := captures
  have unit : (0 : ℚ) < 2 ^ v.exponent := by positivity
  rw [← le_div_iff₀ unit] at lower
  rw [← div_le_iff₀ unit] at upper
  rw [← div_eq_iff unit.ne', ← div_eq_iff unit.ne'] at ends
  rcases v.lowerGap_cases with gap | ⟨gap, power, -⟩
  · rw [gap] at lower ends
    norm_num at lower ends
    exact ⟨by linarith, upper, by simpa using ends⟩
  · rw [gap] at lower
    refine ⟨?_, upper, fun _ => by rw [power]; rfl⟩
    rw [Nat.cast_one] at lower
    linarith

end Magnitude

/-- The exponent of the double nearest to a number with the most significant digit at the given
position. -/
theorem targetExponent_eq (total : ℤ) :
    Format.binary64.targetExponent total = max (total - 53) (-1074) := rfl


/-- The mantissa cut off at an exponent, and what it holds there. -/
theorem Holds.shiftToExponent {m : ℕ} {e target : ℤ} {accuracy : Accuracy} {r : ℚ}
    (holds : Holds (.ofMantissaAndAccuracy m accuracy) (r / 2 ^ e)) (le : e ≤ target) :
    ∃ em, Float.Model.UnpackedFloat.shiftToExponent m e accuracy target = (em, target) ∧
      Holds em (r / 2 ^ target) := by
  refine ⟨_, Prod.ext rfl ?_, ?_⟩
  · show e + ((target - e).toNat : ℤ) = target
    omega
  · have scale : (2 : ℚ) ^ target = 2 ^ e * 2 ^ (target - e).toNat := by
      rw [← zpow_natCast, ← zpow_add₀ two_ne_zero]
      congr 1
      omega
    rw [scale, ← div_div]
    exact holds.shiftRight _

theorem holds_exact (m : ℕ) : Holds (.ofMantissaAndAccuracy m .exact) (m : ℚ) :=
  ⟨le_refl _, by show (m : ℚ) < m + 1; linarith,
    ⟨fun bit => absurd bit Bool.false_ne_true,
      fun half => by change (m : ℚ) + 1 / 2 ≤ m at half; linarith⟩,
    ⟨fun bit => absurd bit Bool.false_ne_true, fun apart => absurd rfl apart.1⟩⟩

section Target

variable {m : ℕ} {e : ℤ} {accuracy : Accuracy} {r : ℚ}

theorem ofMantissaAndAccuracy_mantissa (m : ℕ) (accuracy : Accuracy) :
    (ExtendedMantissa.ofMantissaAndAccuracy m accuracy).mantissa = m := by
  unfold ExtendedMantissa.ofMantissaAndAccuracy
  split <;> rfl

/-- A number below a power of two is rounded at a small enough exponent. -/
theorem Holds.targetExponent_le (holds : Holds (.ofMantissaAndAccuracy m accuracy) (r / 2 ^ e))
    (enough : 2 ^ 52 ≤ m ∨ e ≤ -1074) {k : ℤ} (least : -1074 ≤ k) (lt : r < 2 ^ (k + 53)) :
    Format.binary64.targetExponent (totalExponent m e) ≤ k := by
  rw [targetExponent_eq, totalExponent]
  rcases Nat.eq_zero_or_pos m with rfl | pos
  · have small : e ≤ -1074 := enough.resolve_left (by norm_num)
    rw [Nat.log2_zero]
    omega
  · have le := holds.le
    rw [ofMantissaAndAccuracy_mantissa, le_div_iff₀ (by positivity)] at le
    have digit : (2 : ℚ) ^ m.log2 ≤ m := by exact_mod_cast Nat.log2_self_le pos.ne'
    have power : (2 : ℚ) ^ (m.log2 + e : ℤ) < 2 ^ (k + 53) := by
      calc (2 : ℚ) ^ (m.log2 + e : ℤ) = 2 ^ m.log2 * 2 ^ e := by
            rw [zpow_add₀ two_ne_zero, zpow_natCast]
        _ ≤ m * 2 ^ e := by gcongr
        _ ≤ r := le
        _ < 2 ^ (k + 53) := lt
    have := (zpow_lt_zpow_iff_right₀ one_lt_two).mp power
    omega

/-- A number that is not below a power of two is rounded at a large enough exponent. -/
theorem Holds.le_targetExponent (holds : Holds (.ofMantissaAndAccuracy m accuracy) (r / 2 ^ e))
    {k : ℤ} (le : 2 ^ (k + 52) ≤ r) :
    k ≤ Format.binary64.targetExponent (totalExponent m e) := by
  rw [targetExponent_eq, totalExponent]
  have lt := holds.lt
  rw [ofMantissaAndAccuracy_mantissa, div_lt_iff₀ (by positivity)] at lt
  have digit : (m : ℚ) + 1 ≤ 2 ^ (m.log2 + 1) := by exact_mod_cast Nat.lt_log2_self
  have power : (2 : ℚ) ^ (k + 52) < 2 ^ ((m.log2 + 1 : ℕ) + e : ℤ) := by
    calc (2 : ℚ) ^ (k + 52) ≤ r := le
      _ < (m + 1) * 2 ^ e := lt
      _ ≤ 2 ^ (m.log2 + 1) * 2 ^ e := by gcongr
      _ = 2 ^ ((m.log2 + 1 : ℕ) + e : ℤ) := by rw [zpow_add₀ two_ne_zero, zpow_natCast]
  have := (zpow_lt_zpow_iff_right₀ one_lt_two).mp power
  omega

/-- A mantissa with enough digits is never rounded at an exponent below its own. -/
theorem le_targetExponent (enough : 2 ^ 52 ≤ m ∨ e ≤ -1074) :
    e ≤ Format.binary64.targetExponent (totalExponent m e) := by
  rw [targetExponent_eq, totalExponent]
  rcases enough with digits | small
  · have := (Nat.le_log2 (by omega)).mpr digits
    omega
  · omega

end Target

/-- A mantissa is not cut off at its own exponent if it has at most 53 digits. -/
theorem shiftToTargetExponent_of_lt {m : ℕ} {e : ℤ} (lt : m < 2 ^ 53) (least : -1074 ≤ e) :
    shiftToTargetExponent .binary64 m e .exact = (⟨m, false, false⟩, e) := by
  have digits : m.log2 < 53 := by
    rcases Nat.eq_zero_or_pos m with rfl | pos
    · rw [Nat.log2_zero]
      norm_num
    · exact (Nat.log2_lt pos.ne').mpr lt
  have unshifted : (Format.binary64.targetExponent (totalExponent m e) - e).toNat = 0 := by
    rw [targetExponent_eq, totalExponent]
    omega
  rw [shiftToTargetExponent, Float.Model.UnpackedFloat.shiftToExponent, unshifted]
  exact Prod.ext rfl (Int.add_zero e)

/-- Rounding to `2 ^ 53` moves on to the next exponent. -/
theorem shiftToTargetExponent_two_pow {e : ℤ} (least : -1074 ≤ e) :
    shiftToTargetExponent .binary64 (2 ^ 53) e .exact = (⟨2 ^ 52, false, false⟩, e + 1) := by
  have one : (Format.binary64.targetExponent (totalExponent (2 ^ 53) e) - e).toNat = 1 := by
    rw [targetExponent_eq, totalExponent, Nat.log2_two_pow]
    omega
  rw [shiftToTargetExponent, Float.Model.UnpackedFloat.shiftToExponent, one]
  rfl

/-- A number with fewer digits than the double whose interval it lies in is just below a power of
two. -/
theorem Magnitude.Captures.mantissa_eq {v : Magnitude} (canonical : v.IsCanonical) {r : ℚ}
    (captures : v.Captures r) (least : -1074 < v.exponent) (short : r / 2 ^ v.exponent < 2 ^ 52) :
    v.mantissa = 2 ^ 52 := by
  have unit : (0 : ℚ) < 2 ^ v.exponent := by positivity
  have lower := (le_div_iff₀ unit).mpr captures.lower
  have gap : (v.lowerGap : ℚ) ≤ 2 := by exact_mod_cast v.lowerGap_le_two
  have close : (v.mantissa : ℚ) < 2 ^ 52 + 1 := by linarith
  have : v.mantissa < 2 ^ 52 + 1 := by exact_mod_cast close
  have := canonical.full.resolve_right least.ne'
  omega

/-- A number that is rounded below the exponent of the double whose interval it lies in is rounded
up to a power of two. -/
theorem Magnitude.Captures.isNearest_below {v : Magnitude} (canonical : v.IsCanonical) {r : ℚ}
    (captures : v.Captures r) {m : ℕ} {e : ℤ} {accuracy : Accuracy}
    (holds : Holds (.ofMantissaAndAccuracy m accuracy) (r / 2 ^ e))
    (below : Format.binary64.targetExponent (totalExponent m e) < v.exponent) :
    v.mantissa = 2 ^ 52 ∧ Format.binary64.targetExponent (totalExponent m e) = v.exponent - 1 ∧
      IsNearest (2 ^ 53) (r / 2 ^ (v.exponent - 1)) := by
  have unit : (0 : ℚ) < 2 ^ v.exponent := by positivity
  have short : r / 2 ^ v.exponent < 2 ^ 52 := by
    rw [div_lt_iff₀ unit, ← zpow_natCast, ← zpow_add₀ two_ne_zero, add_comm]
    by_contra long
    exact absurd (holds.le_targetExponent (not_lt.mp long)) (by omega)
  have least : -1074 < v.exponent := by
    rw [targetExponent_eq] at below
    omega
  have power := captures.mantissa_eq canonical least short
  have lower := (le_div_iff₀ unit).mpr captures.lower
  have gap : v.lowerGap = 1 := if_pos ⟨power, least⟩
  rw [power, gap] at lower
  push_cast at lower
  have half : r / 2 ^ (v.exponent - 1) = 2 * (r / 2 ^ v.exponent) := by
    rw [zpow_sub_one₀ two_ne_zero]
    field_simp
  refine ⟨power, le_antisymm (by omega) ?_, ?_⟩
  · refine holds.le_targetExponent ?_
    rw [show v.exponent - 1 + 52 = v.exponent + 51 by ring, zpow_add₀ two_ne_zero, mul_comm,
      ← le_div_iff₀ unit]
    norm_num at lower ⊢
    linarith
  · rw [half]
    refine ⟨?_, ?_, fun _ => rfl⟩ <;> push_cast <;> linarith

/-- However a number is held, it is rounded to the double whose interval it lies in. -/
theorem Magnitude.Captures.roundWithAccuracy_eq {v : Magnitude} (canonical : v.IsCanonical) {r : ℚ}
    (captures : v.Captures r) {m : ℕ} {e : ℤ} {accuracy : Accuracy}
    (holds : Holds (.ofMantissaAndAccuracy m accuracy) (r / 2 ^ e))
    (enough : 2 ^ 52 ≤ m ∨ e ≤ -1074) (sign : Sign) :
    roundWithAccuracy .binary64 sign m e accuracy = v.signed sign := by
  obtain ⟨em, shift, holds'⟩ := holds.shiftToExponent (le_targetExponent enough)
  have unit : (0 : ℚ) < 2 ^ v.exponent := by positivity
  have mantissa : (v.mantissa : ℚ) + 1 ≤ 2 ^ 53 := by exact_mod_cast canonical.mantissa_lt
  have above : Format.binary64.targetExponent (totalExponent m e) ≤ v.exponent := by
    refine holds.targetExponent_le enough canonical.le_exponent ?_
    calc r ≤ (v.mantissa + 1 / 2) * 2 ^ v.exponent := captures.upper
      _ < 2 ^ 53 * 2 ^ v.exponent := mul_lt_mul_of_pos_right (by linarith) unit
      _ = 2 ^ (v.exponent + 53) := by rw [zpow_add₀ two_ne_zero, mul_comm]; rfl
  rw [roundWithAccuracy, shiftToTargetExponent, shift]
  dsimp only
  rcases above.lt_or_eq with below | same
  · obtain ⟨power, next, nearest⟩ := captures.isNearest_below canonical holds below
    have least : -1074 ≤ v.exponent - 1 := by
      rw [← next, targetExponent_eq]
      exact le_max_right _ _
    rw [next] at holds' ⊢
    rw [holds'.roundedMantissa_eq nearest, shiftToTargetExponent_two_pow least]
    simp only [Magnitude.signed, power, sub_add_cancel]
  · rw [same] at holds' ⊢
    rw [holds'.roundedMantissa_eq captures.isNearest,
      shiftToTargetExponent_of_lt canonical.mantissa_lt canonical.le_exponent]
    rfl

end Lindenmayer.Decimal
