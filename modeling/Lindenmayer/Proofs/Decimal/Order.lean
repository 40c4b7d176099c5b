import Mathlib.Data.Rat.Floor
import Mathlib.Data.Int.Log
import Lindenmayer.Proofs.Decimal.Rounding

/-!
# The order of sizes

Sizes are ordered by their exponents, and by their mantissas where the exponents are equal.  The
rounding intervals of sizes do not overlap, so rounding respects the order, and together they hold
every number that is not negative.
-/

namespace Lindenmayer.Decimal

namespace Magnitude

variable {u v w : Magnitude}

/-! ### Comparing sizes -/

/-- A size below another one is at least one unit of its last place below it. -/
theorem IsCanonical.succ_le_of_exponent_lt (canonical : u.IsCanonical) (canonical' : v.IsCanonical)
    (lt : u.exponent < v.exponent) : (u.mantissa + 1) * 2 ^ u.exponent ≤ v.value := by
  have least := canonical.le_exponent
  have digits := canonical'.full.resolve_right (by omega)
  have mantissa : (u.mantissa : ℚ) + 1 ≤ 2 ^ 53 := by exact_mod_cast canonical.mantissa_lt
  calc (u.mantissa + 1) * 2 ^ u.exponent ≤ (2 ^ 53 * 2 ^ u.exponent : ℚ) := by gcongr
    _ = 2 ^ 52 * 2 ^ (u.exponent + 1) := by rw [zpow_add_one₀ two_ne_zero]; ring
    _ ≤ 2 ^ 52 * 2 ^ v.exponent := by gcongr <;> [norm_num; omega]
    _ ≤ v.value := by unfold value; gcongr; exact_mod_cast digits

theorem value_lt_iff_of_exponent_eq (same : u.exponent = v.exponent) :
    u.value < v.value ↔ u.mantissa < v.mantissa := by
  unfold value
  rw [same, mul_lt_mul_iff_of_pos_right (by positivity), Nat.cast_lt]

theorem IsCanonical.value_lt_of_exponent_lt (canonical : u.IsCanonical)
    (canonical' : v.IsCanonical) (lt : u.exponent < v.exponent) : u.value < v.value := by
  refine lt_of_lt_of_le ?_ (canonical.succ_le_of_exponent_lt canonical' lt)
  unfold value
  gcongr
  linarith

/-- Sizes are ordered by their exponents first. -/
theorem IsCanonical.value_lt_iff (canonical : u.IsCanonical) (canonical' : v.IsCanonical) :
    u.value < v.value ↔
      u.exponent < v.exponent ∨ u.exponent = v.exponent ∧ u.mantissa < v.mantissa := by
  rcases lt_trichotomy u.exponent v.exponent with less | same | greater
  · exact iff_of_true (canonical.value_lt_of_exponent_lt canonical' less) (Or.inl less)
  · rw [value_lt_iff_of_exponent_eq same]
    simp [same]
  · exact iff_of_false (canonical'.value_lt_of_exponent_lt canonical greater).asymm (by omega)

theorem IsCanonical.eq_of_value_eq (canonical : u.IsCanonical) (canonical' : v.IsCanonical)
    (same : u.value = v.value) : u = v := by
  have least := mt (canonical.value_lt_iff canonical').mpr same.not_lt
  have greatest := mt (canonical'.value_lt_iff canonical).mpr same.not_gt
  obtain ⟨m, e⟩ := u
  obtain ⟨m', e'⟩ := v
  dsimp only at least greatest
  rw [mk.injEq]
  omega

/-- A size that is not above one within the range of doubles is within it. -/
theorem IsCanonical.isFinite_of_value_le (canonical : u.IsCanonical) (finite : v.IsFinite)
    (le : u.value ≤ v.value) : u.IsFinite := by
  have greatest := mt (finite.isCanonical.value_lt_iff canonical).mpr le.not_gt
  have := finite.exponent_le
  exact ⟨canonical.mantissa_lt, canonical.le_exponent, by omega, canonical.full⟩

/-! ### Neighbours -/

theorem IsCanonical.succ_le (canonical : u.IsCanonical) (canonical' : v.IsCanonical)
    (lt : u.value < v.value) : (u.mantissa + 1) * 2 ^ u.exponent ≤ v.value := by
  rcases (canonical.value_lt_iff canonical').mp lt with less | ⟨same, less⟩
  · exact canonical.succ_le_of_exponent_lt canonical' less
  · unfold value
    rw [same]
    gcongr
    exact_mod_cast less

/-- A size above another one is above it by twice the width of the lower half of its interval. -/
theorem IsCanonical.le_pred (canonical : u.IsCanonical) (canonical' : v.IsCanonical)
    (lt : u.value < v.value) : u.value ≤ (v.mantissa - v.lowerGap / 2) * 2 ^ v.exponent := by
  have gap : (v.lowerGap : ℚ) ≤ 2 := by exact_mod_cast v.lowerGap_le_two
  rcases (canonical.value_lt_iff canonical').mp lt with less | ⟨same, less⟩
  · have least := canonical.le_exponent
    have digits := canonical'.full.resolve_right (by omega)
    have mantissa : (u.mantissa : ℚ) + 1 ≤ 2 ^ 53 := by exact_mod_cast canonical.mantissa_lt
    -- The largest mantissa of the next smaller exponent lies half a place below a full one.
    have below : (2 ^ 52 - 1 / 2 : ℚ) ≤ v.mantissa - v.lowerGap / 2 := by
      rcases v.lowerGap_cases with two | ⟨one, power, -⟩
      · have above : 2 ^ 52 + 1 ≤ v.mantissa := by
          by_contra other
          have power : v.mantissa = 2 ^ 52 := by omega
          have one : v.lowerGap = 1 := if_pos ⟨power, by omega⟩
          omega
        have above : (2 ^ 52 + 1 : ℚ) ≤ v.mantissa := by exact_mod_cast above
        rw [two]
        push_cast
        linarith
      · rw [one, power]
        norm_num
    calc u.value ≤ (2 ^ 53 - 1) * 2 ^ u.exponent := by unfold value; gcongr; linarith
      _ = (2 ^ 52 - 1 / 2) * 2 ^ (u.exponent + 1) := by rw [zpow_add_one₀ two_ne_zero]; ring
      _ ≤ (2 ^ 52 - 1 / 2) * 2 ^ v.exponent := by gcongr <;> [norm_num; omega]
      _ ≤ (v.mantissa - v.lowerGap / 2) * 2 ^ v.exponent := by gcongr
  · have less : (u.mantissa : ℚ) + 1 ≤ v.mantissa := by exact_mod_cast less
    unfold value
    rw [same]
    gcongr
    linarith

/-- If a power of two times a size is below another size, it is below it by a part in `2 ^ 53`. -/
theorem IsCanonical.scaled_le (canonical : u.IsCanonical) (canonical' : v.IsCanonical) {k : ℤ}
    (lt : u.value * 2 ^ k < v.value) :
    2 ^ 53 * (u.value * 2 ^ k) ≤ (2 ^ 53 - 1) * v.value := by
  have mantissa := canonical.mantissa_lt
  have mantissa' := canonical'.mantissa_lt
  have scaled : u.value * 2 ^ k = u.mantissa * 2 ^ (u.exponent + k) := by
    rw [value, zpow_add₀ two_ne_zero]
    ring
  rw [scaled] at lt ⊢
  unfold value at lt ⊢
  -- Both numbers are integers in units of the smaller exponent.
  rcases le_total v.exponent (u.exponent + k) with finer | coarser
  · obtain ⟨count, shift⟩ := Int.le.dest finer
    have unit : (2 : ℚ) ^ (u.exponent + k) = 2 ^ count * 2 ^ v.exponent := by
      rw [← shift, zpow_add₀ two_ne_zero, zpow_natCast, mul_comm]
    rw [unit, ← mul_assoc] at lt ⊢
    have less : u.mantissa * 2 ^ count < v.mantissa := by
      exact_mod_cast lt_of_mul_lt_mul_right lt (by positivity)
    have less : (u.mantissa * 2 ^ count + 1 : ℚ) ≤ v.mantissa := by exact_mod_cast less
    have small : (v.mantissa : ℚ) ≤ 2 ^ 53 := by exact_mod_cast mantissa'.le
    rw [← mul_assoc, ← mul_assoc]
    refine mul_le_mul_of_nonneg_right ?_ (by positivity)
    linarith
  · obtain ⟨count, shift⟩ := Int.le.dest coarser
    have unit : (2 : ℚ) ^ v.exponent = 2 ^ count * 2 ^ (u.exponent + k) := by
      rw [← shift, zpow_add₀ two_ne_zero, zpow_natCast, mul_comm]
    rw [unit, ← mul_assoc] at lt ⊢
    have less : u.mantissa < v.mantissa * 2 ^ count := by
      exact_mod_cast lt_of_mul_lt_mul_right lt (by positivity)
    have less : (u.mantissa + 1 : ℚ) ≤ v.mantissa * 2 ^ count := by exact_mod_cast less
    have small : (u.mantissa + 1 : ℚ) ≤ 2 ^ 53 := by exact_mod_cast mantissa
    rw [← mul_assoc, ← mul_assoc]
    refine mul_le_mul_of_nonneg_right ?_ (by positivity)
    linarith

/-! ### Rounding -/

/-- What is not above a size is not rounded to anything above it. -/
theorem Captures.value_le (canonical : u.IsCanonical) (canonical' : v.IsCanonical) {q : ℚ}
    (captures : u.Captures q) (le : q ≤ v.value) : u.value ≤ v.value := by
  by_contra above
  have close := canonical'.le_pred canonical (not_le.mp above)
  have gap : (0 : ℚ) < u.lowerGap := by exact_mod_cast u.lowerGap_pos
  have apart : (u.mantissa - u.lowerGap / 2) * 2 ^ u.exponent <
      ((u.mantissa - u.lowerGap / 4) * 2 ^ u.exponent : ℚ) := by
    gcongr
    linarith
  linarith [captures.lower]

/-- What is not below a size is not rounded to anything below it. -/
theorem Captures.le_value (canonical : u.IsCanonical) (canonical' : v.IsCanonical) {q : ℚ}
    (captures : u.Captures q) (le : v.value ≤ q) : v.value ≤ u.value := by
  by_contra below
  have close := canonical.succ_le canonical' (not_le.mp below)
  have apart : (u.mantissa + 1 / 2) * 2 ^ u.exponent <
      ((u.mantissa + 1) * 2 ^ u.exponent : ℚ) := by
    gcongr
    norm_num
  linarith [captures.upper]

/-- A size is rounded to itself. -/
theorem Captures.eq_of_value (canonical : u.IsCanonical) (canonical' : v.IsCanonical)
    (captures : u.Captures v.value) : u = v :=
  canonical.eq_of_value_eq canonical' (le_antisymm
    (captures.value_le canonical canonical' le_rfl) (captures.le_value canonical canonical' le_rfl))

end Magnitude

/-- Of the two integers around a number one is nearest to it. -/
theorem exists_isNearest {q : ℚ} (nonneg : 0 ≤ q) :
    ∃ n, IsNearest n q ∧ (n = ⌊q⌋₊ ∨ n = ⌊q⌋₊ + 1) := by
  have le := Nat.floor_le nonneg
  have lt := Nat.lt_floor_add_one q
  rcases lt_trichotomy (q - ⌊q⌋₊) (1 / 2) with less | half | more
  · exact ⟨⌊q⌋₊, ⟨by linarith, by linarith, by rintro (end_ | end_) <;> linarith⟩, Or.inl rfl⟩
  · rcases Nat.mod_two_eq_zero_or_one ⌊q⌋₊ with even | odd
    · exact ⟨⌊q⌋₊, ⟨by linarith, by linarith, fun _ => even⟩, Or.inl rfl⟩
    · refine ⟨⌊q⌋₊ + 1, ⟨?_, ?_, fun _ => by omega⟩, Or.inr rfl⟩ <;> push_cast <;> linarith
  · refine ⟨⌊q⌋₊ + 1, ⟨?_, ?_, ?_⟩, Or.inr rfl⟩
    · push_cast
      linarith
    · push_cast
      linarith
    · push_cast
      rintro (end_ | end_) <;> linarith

namespace Magnitude

/-- A size captures what its mantissa is nearest to, provided that it is not below a size with a
narrow lower half. -/
theorem captures_of_isNearest {v : Magnitude} {q : ℚ}
    (nearest : IsNearest v.mantissa (q / 2 ^ v.exponent))
    (wide : v.lowerGap = 2 ∨ (v.mantissa : ℚ) ≤ q / 2 ^ v.exponent) : v.Captures q := by
  obtain ⟨lower, upper, tie⟩ := nearest
  have unit : (0 : ℚ) < 2 ^ v.exponent := by positivity
  have gap : (0 : ℚ) < v.lowerGap := by exact_mod_cast v.lowerGap_pos
  refine ⟨?_, ?_, ?_⟩
  · rw [← le_div_iff₀ unit]
    rcases wide with two | above
    · rw [two]
      push_cast
      linarith
    · linarith
  · rwa [← div_le_iff₀ unit]
  · rw [← div_eq_iff unit.ne', ← div_eq_iff unit.ne']
    rintro (lowest | highest)
    · rcases wide with two | above
      · rw [two] at lowest
        push_cast at lowest
        exact tie (Or.inl (by linarith))
      · linarith
    · exact tie (Or.inr highest)

/-- Rounding up to a power of two leads to the next exponent. -/
theorem captures_of_isNearest_two_pow {e : ℤ} {q : ℚ} (least : -1074 ≤ e)
    (nearest : IsNearest (2 ^ 53) (q / 2 ^ e)) (lt : q / 2 ^ e < 2 ^ 53) :
    Captures ⟨2 ^ 52, e + 1⟩ q := by
  have unit : (0 : ℚ) < 2 ^ e := by positivity
  have lower := nearest.lower
  have gap : lowerGap ⟨2 ^ 52, e + 1⟩ = 1 := if_pos ⟨rfl, by dsimp only; omega⟩
  rw [div_lt_iff₀ unit] at lt
  push_cast at lower
  rw [le_div_iff₀ unit] at lower
  refine ⟨?_, ?_, fun _ => by norm_num⟩ <;> dsimp only <;> rw [zpow_add_one₀ two_ne_zero]
  · rw [gap]
    push_cast
    linarith
  · push_cast
    linarith

/-- Every number that is not negative is rounded to some size. -/
theorem exists_captures {q : ℚ} (nonneg : 0 ≤ q) :
    ∃ v : Magnitude, v.IsCanonical ∧ v.Captures q := by
  rcases lt_or_ge q (2 ^ (-1022 : ℤ)) with small | large
  · -- Rounded at the least exponent.
    have short : q / 2 ^ (-1074 : ℤ) < 2 ^ 52 := by
      rw [div_lt_iff₀ (by positivity), ← zpow_natCast, ← zpow_add₀ two_ne_zero]
      exact small
    obtain ⟨n, nearest, whole⟩ := exists_isNearest (q := q / 2 ^ (-1074 : ℤ)) (by positivity)
    have floor : ⌊q / 2 ^ (-1074 : ℤ)⌋₊ < 2 ^ 52 :=
      (Nat.floor_lt (by positivity)).mpr (by exact_mod_cast short)
    refine ⟨⟨n, -1074⟩, ⟨?_, le_rfl, Or.inr rfl⟩, captures_of_isNearest nearest (Or.inl ?_)⟩
    · dsimp only
      omega
    · exact if_neg fun above => absurd above.2 (lt_irrefl _)
  · -- Rounded at the exponent that leaves 53 digits.
    have pos : 0 < q := lt_of_lt_of_le (by positivity) large
    obtain ⟨e, log⟩ : ∃ e, Int.log 2 q = e + 52 := ⟨Int.log 2 q - 52, by ring⟩
    have least : -1074 ≤ e := by
      have := (Int.zpow_le_iff_le_log (b := 2) (by norm_num) pos).mp (by exact_mod_cast large)
      omega
    have unit : (0 : ℚ) < 2 ^ e := by positivity
    have full : 2 ^ 52 ≤ q / 2 ^ e := by
      have := Int.zpow_log_le_self (b := 2) (by norm_num) pos
      rw [log, zpow_add₀ (by norm_num)] at this
      rw [le_div_iff₀ unit, mul_comm]
      exact_mod_cast this
    have lt : q / 2 ^ e < 2 ^ 53 := by
      have := Int.lt_zpow_succ_log_self (b := 2) (by norm_num) q
      rw [log, add_assoc, zpow_add₀ (by norm_num)] at this
      rw [div_lt_iff₀ unit, mul_comm]
      exact_mod_cast this
    have digits : 2 ^ 52 ≤ ⌊q / 2 ^ e⌋₊ := Nat.le_floor (by exact_mod_cast full)
    have floor : ⌊q / 2 ^ e⌋₊ < 2 ^ 53 := (Nat.floor_lt (by positivity)).mpr (by exact_mod_cast lt)
    obtain ⟨n, nearest, whole⟩ := exists_isNearest (q := q / 2 ^ e) (by positivity)
    rcases (by omega : n < 2 ^ 53 ∨ n = 2 ^ 53) with short | rfl
    · refine ⟨⟨n, e⟩, ⟨short, least, Or.inl ?_⟩, captures_of_isNearest nearest ?_⟩
      · dsimp only
        omega
      · rcases lowerGap_cases ⟨n, e⟩ with two | ⟨-, power, -⟩
        · exact Or.inl two
        · dsimp only at power ⊢
          rw [power]
          exact Or.inr (by exact_mod_cast full)
    · exact ⟨⟨2 ^ 52, e + 1⟩, ⟨by norm_num, by dsimp only; omega, Or.inl le_rfl⟩,
        captures_of_isNearest_two_pow least nearest lt⟩

end Magnitude

end Lindenmayer.Decimal
