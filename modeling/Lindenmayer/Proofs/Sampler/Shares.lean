import Lindenmayer.Proofs.Sampler.Weights

/-!
# The shares of a table

An entry gets a place in a table if its weight, in parts of the sum of all weights, is at least half
a place.  The share is computed in two rounded steps and then rounded to whole places, but no share
on the wrong side of this threshold is rounded across it.
-/

namespace Lindenmayer.Sampler

open Decimal

/-! ### Rounding to whole places -/

/-- The size of a half. -/
def half : Magnitude := ⟨2 ^ 52, -53⟩

theorem isFinite_half : half.IsFinite := ⟨by decide, by decide, by decide, Or.inl le_rfl⟩

theorem value_half : half.value = 1 / 2 := by
  norm_num [half, Magnitude.value]

theorem half_eq_double : (0.5 : Float) = half.double := by
  decide +kernel

/-- The greatest size below a half. -/
def belowHalf : Magnitude := ⟨2 ^ 53 - 1, -54⟩

theorem isFinite_belowHalf : belowHalf.IsFinite :=
  ⟨by decide, by decide, by decide, Or.inl (by decide)⟩

theorem value_belowHalf : belowHalf.value = (2 ^ 53 - 1) / 2 ^ 54 := by
  norm_num [belowHalf, Magnitude.value]

/-- Only what is less than a half is rounded to nothing. -/
theorem roundHalfUp_double_eq_zero_iff {v : Magnitude} (finite : v.IsFinite)
    (lt : v.value < 2 ^ 64) : roundHalfUp v.double = 0 ↔ v.value < half.value := by
  have whole := Magnitude.toNat_toUInt64_double finite lt
  have rest (wholeZero : v.double.toUInt64 = 0) :
      v.double - v.double.toUInt64.toFloat < 0.5 ↔ v.value < half.value := by
    have zero : (0 : UInt64).toFloat = Magnitude.zero.double := by decide +kernel
    rw [wholeZero, zero, Magnitude.double_sub_zero finite, half_eq_double,
      Magnitude.double_lt_double finite isFinite_half]
  unfold roundHalfUp
  dsimp only
  constructor
  · intro rounded
    split at rounded
    · rename_i less
      exact (rest (UInt64.toNat_inj.mp rounded)).mp less
    · cases rounded
  · intro less
    have wholeZero : v.double.toUInt64 = 0 := by
      rw [← UInt64.toNat_inj, whole]
      refine Nat.floor_eq_zero.mpr (less.trans ?_)
      rw [value_half]
      norm_num
    rw [if_pos ((rest wholeZero).mpr less), wholeZero]
    rfl

/-! ### Shares -/

/-- The size of a whole table. -/
def places : Magnitude := .ofNat tableResolution

theorem isNormal_places : places.IsNormal := Magnitude.isNormal_ofNat (by decide) (by decide)

theorem value_places : places.value = 2 ^ 10 := by
  rw [places, Magnitude.value_ofNat (by decide) (by decide)]
  norm_num [tableResolution]

theorem ofNat_tableResolution : Float.ofNat tableResolution = places.double := by
  decide +kernel

/-- The share that comes to a given number of places. -/
def shareOf (v : Magnitude) : Magnitude := ⟨v.mantissa, v.exponent - 10⟩

theorem value_shareOf (v : Magnitude) : (shareOf v).value = v.value / places.value := by
  rw [value_places, Magnitude.value, Magnitude.value, shareOf, zpow_sub₀ two_ne_zero,
    ← mul_div_assoc]
  norm_cast

variable {total weight : Magnitude}

/-- The places of a weight are computed in two rounded steps, and neither of them crosses a number
of places that is a size as long as the share for it is one. -/
theorem exists_places (finite : total.IsFinite) (finite' : weight.IsFinite)
    (pos : 0 < total.value) (le : weight.value ≤ total.value) :
    ∃ taken : Magnitude, taken.IsFinite ∧ taken.value ≤ places.value ∧
      weight.double / total.double * Float.ofNat tableResolution = taken.double ∧
      ∀ v : Magnitude, v.IsCanonical → (shareOf v).IsCanonical →
        ((shareOf v).value ≤ weight.value / total.value → v.value ≤ taken.value) ∧
        (weight.value / total.value ≤ (shareOf v).value → taken.value ≤ v.value) := by
  obtain ⟨share, small, captures, part, quotient⟩ :=
    Magnitude.exists_quotient finite' finite pos le
  obtain ⟨taken, canonical, captures'⟩ :=
    Magnitude.exists_captures (mul_nonneg share.value_nonneg places.value_nonneg)
  have placesPos : 0 < places.value := isNormal_places.value_pos
  have low : taken.value ≤ places.value := by
    refine captures'.value_le canonical isNormal_places.isCanonical ?_
    exact mul_le_of_le_one_left placesPos.le part
  have within := canonical.isFinite_of_value_le isNormal_places.toIsFinite low
  refine ⟨taken, within, low, ?_, fun v whole divided => ⟨fun above => ?_, fun below => ?_⟩⟩
  · rw [quotient, ofNat_tableResolution]
    exact Magnitude.double_mul small isNormal_places within captures'
  · have above := captures.le_value small.isCanonical divided above
    rw [value_shareOf, div_le_iff₀ placesPos] at above
    exact captures'.le_value canonical whole above
  · have below := captures.value_le small.isCanonical divided below
    rw [value_shareOf, le_div_iff₀ placesPos] at below
    exact captures'.value_le canonical whole below

/-! ### The threshold of half a place -/

theorem isCanonical_shareOf_half : (shareOf half).IsCanonical :=
  ⟨by decide, by decide, Or.inl le_rfl⟩

theorem isCanonical_shareOf_belowHalf : (shareOf belowHalf).IsCanonical :=
  ⟨by decide, by decide, Or.inl (by decide)⟩

/-- A weight that does not come to half a place does not come to more than the size below it, as
numbers of 53 digits cannot be closer than that. -/
theorem quotient_le_shareOf_belowHalf (finite : total.IsFinite) (finite' : weight.IsFinite)
    (pos : 0 < total.value) (lt : 2048 * weight.value < total.value) :
    weight.value / total.value ≤ (shareOf belowHalf).value := by
  have apart := finite'.isCanonical.scaled_le finite.isCanonical (k := 11)
    (by norm_num at lt ⊢; linarith)
  rw [value_shareOf, value_belowHalf, value_places, div_le_iff₀ pos]
  norm_num at apart ⊢
  linarith

/-- An entry gets no place in a table exactly if its weight is below half a place, in parts of the
sum of all weights. -/
theorem copies_double_eq_zero_iff (finite : total.IsFinite) (finite' : weight.IsFinite)
    (le : weight.value ≤ total.value) :
    copies total.double weight.double = 0 ↔ 2048 * weight.value < total.value := by
  rcases total.value_nonneg.eq_or_lt with totalZero | pos
  · -- Nothing divided by nothing is no number, and gets a place.
    have total_eq : total = .zero := finite.isCanonical.eq_of_value_eq
      Magnitude.isFinite_zero.isCanonical (totalZero.symm.trans Magnitude.value_zero.symm)
    have weight_eq : weight = .zero := finite'.isCanonical.eq_of_value_eq
      Magnitude.isFinite_zero.isCanonical
      ((le_antisymm (totalZero ▸ le) weight.value_nonneg).trans Magnitude.value_zero.symm)
    rw [total_eq, weight_eq, Magnitude.value_zero]
    exact iff_of_false (by decide +kernel) (by norm_num)
  · obtain ⟨taken, within, low, product, rounds⟩ := exists_places finite finite' pos le
    have fits : taken.value < 2 ^ 64 := low.trans_lt (by rw [value_places]; norm_num)
    rw [copies, product, roundHalfUp_double_eq_zero_iff within fits]
    constructor
    · intro less
      by_contra more
      refine absurd ((rounds half isFinite_half.isCanonical isCanonical_shareOf_half).1 ?_)
        (not_le.mpr less)
      rw [value_shareOf, value_half, value_places, le_div_iff₀ pos]
      linarith
    · intro less
      have lost := (rounds belowHalf isFinite_belowHalf.isCanonical
        isCanonical_shareOf_belowHalf).2 (quotient_le_shareOf_belowHalf finite finite' pos less)
      refine lost.trans_lt ?_
      rw [value_belowHalf, value_half]
      norm_num

end Lindenmayer.Sampler
