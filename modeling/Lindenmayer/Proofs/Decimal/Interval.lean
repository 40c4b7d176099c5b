import Lindenmayer.Proofs.Decimal.Rounding

/-!
# The shortest decimal lies in the rounding interval

Every decimal that the search for the shortest one stops at lies in the rounding interval of the
size, and the search stops at the latest where the size itself lies on the grid.
-/

namespace Lindenmayer.Decimal

/-- The number that a decimal writes. -/
def Scaled.value (d : Scaled) : ℚ := d.digits * 10 ^ d.exponent

namespace Magnitude

/-- A power of a number is made of powers with exponents that are not negative. -/
theorem zpow_eq_div {b : ℚ} (pos : 0 < b) (e : ℤ) : b ^ e = b ^ e.toNat / b ^ (-e).toNat := by
  rw [← zpow_natCast, ← zpow_natCast, ← zpow_sub₀ pos.ne']
  congr 1
  omega

/-- Steps of the decimal grid, measured in quarters of the last binary place. -/
theorem steps_eq (v : Magnitude) (place : ℤ) (steps : ℕ) :
    (steps * 10 ^ place : ℚ) = (steps * (10 ^ place.toNat * 2 ^ (-(v.exponent - 2)).toNat) : ℕ) /
      (2 ^ (v.exponent - 2).toNat * 10 ^ (-place).toNat : ℕ) / 4 * 2 ^ v.exponent := by
  have quarter : (2 : ℚ) ^ v.exponent = 4 * 2 ^ (v.exponent - 2) := by
    rw [show (4 : ℚ) = 2 ^ (2 : ℤ) by norm_num, ← zpow_add₀ two_ne_zero, add_sub_cancel]
  rw [quarter, zpow_eq_div two_pos (v.exponent - 2), zpow_eq_div (by norm_num : (0 : ℚ) < 10) place]
  push_cast
  field_simp

/-- The steps that `stepsAt` finds lead into the rounding interval, as it is measured there. -/
theorem inside_of_stepsAt {v : Magnitude} {place : ℤ} {steps : ℕ}
    (hit : v.stepsAt place = some steps) :
    let unit := 2 ^ (v.exponent - 2).toNat * 10 ^ (-place).toNat
    let reached := steps * (10 ^ place.toNat * 2 ^ (-(v.exponent - 2)).toNat)
    (4 * v.mantissa - v.lowerGap) * unit ≤ reached ∧ reached ≤ (4 * v.mantissa + 2) * unit ∧
      (v.mantissa % 2 ≠ 0 → (4 * v.mantissa - v.lowerGap) * unit < reached ∧
        reached < (4 * v.mantissa + 2) * unit) := by
  unfold stepsAt at hit
  extract_lets quarters unit grid value lower upper inside first at hit
  have hits : inside (steps * grid) = true := by
    split at hit
    · split at hit <;> rw [← Option.some.inj hit] <;> assumption
    · rw [← Option.some.inj hit]
      assumption
    · rw [← Option.some.inj hit]
      assumption
    · cases hit
  simp only [inside] at hits
  split at hits
  · rename_i even
    rw [Bool.and_eq_true, decide_eq_true_eq, decide_eq_true_eq] at hits
    exact ⟨hits.1, hits.2, fun odd => absurd even odd⟩
  · rw [Bool.and_eq_true, decide_eq_true_eq, decide_eq_true_eq] at hits
    exact ⟨hits.1.le, hits.2.le, fun _ => hits⟩

/-- A number of steps that `stepsAt` finds lies in the rounding interval. -/
theorem captures_of_stepsAt {v : Magnitude} {place : ℤ} {steps : ℕ}
    (hit : v.stepsAt place = some steps) : v.Captures (steps * 10 ^ place) := by
  obtain ⟨lower, upper, strict⟩ := inside_of_stepsAt hit
  rw [steps_eq v]
  generalize steps * (10 ^ place.toNat * 2 ^ (-(v.exponent - 2)).toNat) = reached at *
  have unit_pos : 0 < 2 ^ (v.exponent - 2).toNat * 10 ^ (-place).toNat := by positivity
  generalize 2 ^ (v.exponent - 2).toNat * 10 ^ (-place).toNat = unit at *
  have scale : (0 : ℚ) < 2 ^ v.exponent := by positivity
  have unit_pos : (0 : ℚ) < unit := by exact_mod_cast unit_pos
  have gap : (4 * v.mantissa - v.lowerGap : ℚ) ≤ (4 * v.mantissa - v.lowerGap : ℕ) := by
    rw [sub_le_iff_le_add]
    exact_mod_cast le_tsub_add
  have lower_le : (4 * v.mantissa - v.lowerGap : ℚ) ≤ reached / unit := by
    rw [le_div_iff₀ unit_pos]
    calc (4 * v.mantissa - v.lowerGap : ℚ) * unit
        ≤ (4 * v.mantissa - v.lowerGap : ℕ) * unit := by gcongr
      _ ≤ reached := by exact_mod_cast lower
  have le_upper : (reached / unit : ℚ) ≤ 4 * v.mantissa + 2 := by
    rw [div_le_iff₀ unit_pos]
    exact_mod_cast upper
  refine ⟨?_, ?_, fun ends => ?_⟩
  · refine mul_le_mul_of_nonneg_right ?_ scale.le
    linarith
  · refine mul_le_mul_of_nonneg_right ?_ scale.le
    linarith
  · by_contra odd
    obtain ⟨above, below⟩ := strict odd
    rw [mul_left_inj' scale.ne', mul_left_inj' scale.ne'] at ends
    have lower_lt : (4 * v.mantissa - v.lowerGap : ℚ) < reached / unit := by
      rw [lt_div_iff₀ unit_pos]
      calc (4 * v.mantissa - v.lowerGap : ℚ) * unit
          ≤ (4 * v.mantissa - v.lowerGap : ℕ) * unit := by gcongr
        _ < reached := by exact_mod_cast above
    have lt_upper : (reached / unit : ℚ) < 4 * v.mantissa + 2 := by
      rw [div_lt_iff₀ unit_pos]
      exact_mod_cast below
    rcases ends with low | high
    · linarith
    · linarith

/-- With places as small as this, the size itself lies on the grid. -/
theorem grid_dvd (v : Magnitude) :
    10 ^ (min v.exponent 0).toNat * 2 ^ (-(v.exponent - 2)).toNat ∣
      4 * v.mantissa * (2 ^ (v.exponent - 2).toNat * 10 ^ (-min v.exponent 0).toNat) := by
  have whole : (min v.exponent 0).toNat = 0 := by omega
  have twos : (-(v.exponent - 2)).toNat ≤ 2 + (-min v.exponent 0).toNat := by omega
  rw [whole, pow_zero, one_mul]
  calc 2 ^ (-(v.exponent - 2)).toNat ∣ 2 ^ (2 + (-min v.exponent 0).toNat) := pow_dvd_pow 2 twos
    _ ∣ 2 ^ (2 + (-min v.exponent 0).toNat) *
          (v.mantissa * 2 ^ (v.exponent - 2).toNat * 5 ^ (-min v.exponent 0).toNat) :=
        Nat.dvd_mul_right _ _
    _ = 4 * v.mantissa * (2 ^ (v.exponent - 2).toNat * 10 ^ (-min v.exponent 0).toNat) := by
        rw [show 10 = 2 * 5 by norm_num, mul_pow]
        ring

/-- The search stops at the latest where the size itself lies on the grid. -/
theorem exists_stepsAt (v : Magnitude) : ∃ steps, v.stepsAt (min v.exponent 0) = some steps := by
  unfold stepsAt
  extract_lets quarters unit grid value lower upper inside steps
  have unit_pos : 0 < unit := Nat.mul_pos (Nat.pow_pos two_pos) (Nat.pow_pos (by norm_num))
  have gap_pos := v.lowerGap_pos
  have reached : steps * grid = value := Nat.div_mul_cancel v.grid_dvd
  have hits : inside (steps * grid) = true := by
    rw [reached]
    simp only [inside]
    split
    · rw [Bool.and_eq_true, decide_eq_true_eq, decide_eq_true_eq]
      exact ⟨Nat.mul_le_mul_right _ (Nat.sub_le _ _), Nat.mul_le_mul_right _ (Nat.le_add_right _ _)⟩
    · rename_i odd
      rw [Bool.and_eq_true, decide_eq_true_eq, decide_eq_true_eq]
      exact ⟨Nat.mul_lt_mul_of_pos_right (by omega) unit_pos,
        Nat.mul_lt_mul_of_pos_right (by omega) unit_pos⟩
  rw [hits]
  split
  · split <;> exact ⟨_, rfl⟩
  · exact ⟨_, rfl⟩
  · exact ⟨_, rfl⟩
  · rename_i no _
    cases no

/-- A search that starts above a place where it stops finds the decimal it stops at. -/
theorem stepsAt_coarsest {v : Magnitude} {tries : ℕ} {place last : ℤ}
    (reaches : place - tries = last) {steps : ℕ} (stops : v.stepsAt last = some steps) :
    v.stepsAt (v.coarsest tries place).exponent = some (v.coarsest tries place).digits ∧
      last ≤ (v.coarsest tries place).exponent := by
  induction tries generalizing place with
  | zero =>
    obtain rfl : place = last := by simpa using reaches
    rw [coarsest, stops]
    exact ⟨rfl, le_refl _⟩
  | succ tries ih =>
    rw [coarsest]
    split
    · rename_i found
      exact ⟨found, by dsimp only; omega⟩
    · exact ih (by omega)

/-- The shortest decimal lies in the rounding interval. -/
theorem captures_shortest (v : Magnitude) :
    v.Captures v.shortest.value ∧ min v.exponent 0 ≤ v.shortest.exponent := by
  obtain ⟨steps, stops⟩ := exists_stepsAt v
  have reaches : (v.mantissa.log2 + 1 + v.exponent) * 1233 / 4096 + 1 -
      (((v.mantissa.log2 + 1 + v.exponent) * 1233 / 4096 + 1 - min v.exponent 0).toNat : ℤ) =
      min v.exponent 0 := by
    omega
  obtain ⟨found, le⟩ := stepsAt_coarsest reaches stops
  exact ⟨captures_of_stepsAt found, le⟩

end Magnitude

end Lindenmayer.Decimal
