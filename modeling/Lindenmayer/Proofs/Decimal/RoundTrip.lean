import Lindenmayer.Proofs.Decimal.Interval
import Lindenmayer.Proofs.Decimal.Scientific
import Lindenmayer.Proofs.Decimal.Text

/-!
# Doubles are read back from their text

The text of a finite double is read as the double itself, down to the sign of a zero.
-/

open Float.Model Float.Model.UnpackedFloat

namespace Lindenmayer.Decimal

/-! ### Orders of magnitude -/

namespace Magnitude.Captures

variable {v : Magnitude} (finite : v.IsFinite) {r : ℚ} (captures : v.Captures r)
include finite captures

theorem lt_two_zpow : r < 2 ^ (1024 : ℤ) := by
  have mantissa : (v.mantissa : ℚ) + 1 / 2 < 2 ^ (53 : ℤ) := by
    have : (v.mantissa : ℚ) + 1 ≤ 2 ^ (53 : ℤ) := by exact_mod_cast finite.mantissa_lt
    linarith
  have nonneg : (0 : ℚ) ≤ v.mantissa + 1 / 2 := by positivity
  have exponent : (2 : ℚ) ^ v.exponent ≤ 2 ^ (971 : ℤ) :=
    zpow_le_zpow_right₀ one_le_two finite.exponent_le
  calc r ≤ (v.mantissa + 1 / 2) * 2 ^ v.exponent := captures.upper
    _ ≤ (v.mantissa + 1 / 2) * 2 ^ (971 : ℤ) :=
      mul_le_mul_of_nonneg_left exponent nonneg
    _ < 2 ^ (53 : ℤ) * 2 ^ (971 : ℤ) := mul_lt_mul_of_pos_right mantissa (zpow_pos two_pos _)
    _ = 2 ^ (1024 : ℤ) := by rw [← zpow_add₀ two_ne_zero]; rfl

theorem two_zpow_le (pos : 0 < v.mantissa) : 2 ^ (-1075 : ℤ) ≤ r := by
  have mantissa : (1 : ℚ) ≤ v.mantissa := by exact_mod_cast pos
  have gap : (v.lowerGap : ℚ) ≤ 2 := by exact_mod_cast v.lowerGap_le_two
  have half : 2 ^ (-1 : ℤ) ≤ (v.mantissa - v.lowerGap / 4 : ℚ) := by
    norm_num
    linarith
  calc (2 : ℚ) ^ (-1075 : ℤ) = 2 ^ (-1 : ℤ) * 2 ^ (-1074 : ℤ) := by
        rw [← zpow_add₀ two_ne_zero]; rfl
    _ ≤ (v.mantissa - v.lowerGap / 4) * 2 ^ v.exponent := by
      refine mul_le_mul half ?_ (zpow_pos two_pos _).le (le_trans (zpow_pos two_pos _).le half)
      exact zpow_le_zpow_right₀ one_le_two finite.le_exponent
    _ ≤ r := captures.lower

end Magnitude.Captures

/-- Bounds for a number, given by powers of two, bound the digits that write it. -/
theorem digits_bounds {n k upper lower : ℕ} (pos : 0 < n) (above : n < 2 ^ upper * 10 ^ k)
    (below : 10 ^ k ≤ n * 2 ^ lower) :
    3 * n.log2 < 3 * upper + 10 * k ∧ 13 * k < 4 * (n.log2 + 1 + lower) := by
  have three : (10 ^ 3) ^ k ≤ (2 ^ 10) ^ k := Nat.pow_le_pow_left (by norm_num) k
  have four : (2 ^ 13) ^ k ≤ (10 ^ 4) ^ k := Nat.pow_le_pow_left (by norm_num) k
  constructor
  · refine (Nat.pow_lt_pow_iff_right (by norm_num : 1 < 2)).mp ?_
    calc 2 ^ (3 * n.log2) = (2 ^ n.log2) ^ 3 := by rw [← pow_mul, mul_comm]
      _ ≤ n ^ 3 := Nat.pow_le_pow_left (Nat.log2_self_le pos.ne') 3
      _ < (2 ^ upper * 10 ^ k) ^ 3 := Nat.pow_lt_pow_left above (by norm_num)
      _ = 2 ^ (3 * upper) * (10 ^ 3) ^ k := by
        rw [mul_pow, ← pow_mul, ← pow_mul, ← pow_mul, mul_comm k, mul_comm upper]
      _ ≤ 2 ^ (3 * upper) * (2 ^ 10) ^ k := Nat.mul_le_mul_left _ three
      _ = 2 ^ (3 * upper + 10 * k) := by rw [← pow_mul, ← pow_add]
  · refine (Nat.pow_lt_pow_iff_right (by norm_num : 1 < 2)).mp ?_
    calc 2 ^ (13 * k) = (2 ^ 13) ^ k := pow_mul 2 13 k
      _ ≤ (10 ^ 4) ^ k := four
      _ = (10 ^ k) ^ 4 := by rw [← pow_mul, ← pow_mul, mul_comm]
      _ ≤ (n * 2 ^ lower) ^ 4 := Nat.pow_le_pow_left below 4
      _ < (2 ^ (n.log2 + 1) * 2 ^ lower) ^ 4 := by
        refine Nat.pow_lt_pow_left ?_ (by norm_num)
        exact Nat.mul_lt_mul_of_pos_right Nat.lt_log2_self (Nat.two_pow_pos lower)
      _ = 2 ^ (4 * (n.log2 + 1 + lower)) := by rw [← pow_add, ← pow_mul, mul_comm]

/-- The order of magnitude of a decimal in the interval of a double lets it be read digit by
digit. -/
theorem order_bounds {v : Magnitude} (finite : v.IsFinite) (pos : 0 < v.mantissa) {n : ℕ} {e : ℤ}
    (captures : v.Captures (n * 10 ^ e)) (least : -1074 ≤ e) (nonpos : e ≤ 0) (digitsPos : 0 < n) :
    -400 ≤ (n.log2 : ℤ) * 30103 / 100000 + e ∧ (n.log2 : ℤ) * 30103 / 100000 + e ≤ 400 := by
  obtain ⟨k, rfl⟩ : ∃ k : ℕ, e = -k := ⟨(-e).toNat, by omega⟩
  rw [zpow_neg, zpow_natCast, ← div_eq_mul_inv] at captures
  have power : (0 : ℚ) < 10 ^ k := by positivity
  have above : n < 2 ^ 1024 * 10 ^ k := by
    have := (div_lt_iff₀ power).mp (captures.lt_two_zpow finite)
    exact_mod_cast this
  have below : 10 ^ k ≤ n * 2 ^ 1075 := by
    have := (le_div_iff₀ power).mp (captures.two_zpow_le finite pos)
    rw [zpow_neg, inv_mul_le_iff₀ (zpow_pos two_pos _), mul_comm] at this
    exact_mod_cast this
  have := digits_bounds digitsPos above below
  omega

/-- The double nearest to a decimal in its rounding interval. -/
theorem Numeral.size_eq {v : Magnitude} (finite : v.IsFinite) (pos : 0 < v.mantissa) {n : Numeral}
    (captures : v.Captures (n.digits * 10 ^ n.exponent)) (least : -1074 ≤ n.exponent)
    (nonpos : n.exponent ≤ 0) (digitsPos : 0 < n.digits) :
    n.size = v.double := by
  obtain ⟨low, high⟩ := order_bounds finite pos captures least nonpos digitsPos
  unfold size
  extract_lets order
  rw [if_neg, if_neg (by omega)]
  · exact ofScientific_eq finite digitsPos (by omega) (by omega) captures
  · simp only [Bool.or_eq_true, decide_eq_true_eq]
    omega

/-! ### The round trip -/

/-- A decimal with the places behind the point apart from the rest, as it is written. -/
theorem Scaled.value_eq (d : Scaled) :
    d.value = (d.digits * 10 ^ d.exponent.toNat : ℕ) * 10 ^ min d.exponent 0 := by
  have power : (10 : ℚ) ^ d.exponent = 10 ^ d.exponent.toNat * 10 ^ min d.exponent 0 := by
    rw [← zpow_natCast, ← zpow_add₀ (by norm_num)]
    congr 1
    omega
  rw [value, power]
  push_cast
  ring

theorem neg_zero_eq_ofModel : -(0 : Float) = Float.ofModel (.pack (.zero .negative)) := by
  decide +kernel

/-- The decimal that a size is written as is read as the double with this size. -/
theorem Magnitude.toFloat_decimal {v : Magnitude} (finite : v.IsFinite) (negative : Bool) :
    Numeral.toFloat ⟨negative, v.decimal.digits * 10 ^ v.decimal.exponent.toNat,
      min v.decimal.exponent 0⟩ =
      Float.ofModel (.pack (v.signed (if negative then .negative else .positive))) := by
  unfold Numeral.toFloat decimal
  rcases Nat.eq_zero_or_pos v.mantissa with zero | pos
  · rw [if_pos zero, signed, dif_pos zero]
    cases negative with
    | false => exact Magnitude.zero_eq_double
    | true => exact neg_zero_eq_ofModel
  · rw [if_neg pos.ne']
    obtain ⟨captures, least⟩ := v.captures_shortest
    have digitsNonzero : v.shortest.digits ≠ 0 := by
      intro digitsZero
      have := captures.two_zpow_le finite pos
      rw [Scaled.value, digitsZero, Nat.cast_zero, zero_mul] at this
      exact absurd (zpow_pos two_pos (-1075)) (not_lt.mpr this)
    rw [Scaled.value_eq] at captures
    have size : Numeral.size ⟨negative, v.shortest.digits * 10 ^ v.shortest.exponent.toNat,
        min v.shortest.exponent 0⟩ = v.double := by
      have := finite.le_exponent
      refine Numeral.size_eq finite pos captures ?_ (min_le_right _ _) ?_
      · show -1074 ≤ min v.shortest.exponent 0
        omega
      · positivity
    rw [size]
    cases negative with
    | false => rfl
    | true => exact neg_ofModel_pack_signed finite .positive

/-- A finite double is read back from its text. -/
theorem read?_text_eq_some {x : Float} (finite : x.isFinite = true) :
    read? (text x).toList = some x := by
  rw [read?_text finite, Magnitude.toFloat_decimal (isFinite_ofFloat finite), Option.some_inj]
  exact ofModel_pack_signed finite

end Lindenmayer.Decimal
