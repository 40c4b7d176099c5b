import Lindenmayer.Proofs.Decimal.Order

/-!
# The double nearest to a scaled integer

An integer times or divided by a power of ten is turned into a double by one rounding, whether it is
computed with doubles that hold both exactly or with integers.
-/

open Float.Model Float.Model.UnpackedFloat

namespace Lindenmayer.Decimal

/-! ### Products and quotients -/

/-- What is left of a number is noted by its order relative to a half. -/
theorem holds_accuracyOfFraction (m : ℕ) {num den : ℕ} (lt : num < den) :
    Holds (.ofMantissaAndAccuracy m (accuracyOfFraction num den)) (m + num / den : ℚ) := by
  have den_pos : (0 : ℚ) < den := by exact_mod_cast Nat.zero_lt_of_lt lt
  have nonneg : (0 : ℚ) ≤ num / den := by positivity
  have lt_one : (num / den : ℚ) < 1 := (div_lt_one den_pos).mpr (by exact_mod_cast lt)
  have half : (m + 1 / 2 : ℚ) ≤ m + num / den ↔ den ≤ 2 * num := by
    rw [add_le_add_iff_left, div_le_div_iff₀ two_pos den_pos, one_mul, mul_comm]
    exact_mod_cast Iff.rfl
  have exactly : (m + 1 / 2 : ℚ) = m + num / den ↔ den = 2 * num := by
    rw [add_right_inj, div_eq_div_iff two_ne_zero den_pos.ne', one_mul, mul_comm]
    exact_mod_cast Iff.rfl
  have integral : (m : ℚ) = m + num / den ↔ num = 0 := by
    rw [left_eq_add, div_eq_zero_iff, or_iff_left den_pos.ne', Nat.cast_eq_zero]
  have le : (m : ℚ) ≤ m + num / den := by linarith
  have lt_succ : (m + num / den : ℚ) < m + 1 := by linarith
  unfold accuracyOfFraction
  split
  · rename_i zero
    rw [zero, Nat.cast_zero, zero_div, add_zero]
    exact holds_exact m
  rename_i nonzero
  cases order : compare (2 * num) den with
  | lt =>
    have below := Nat.compare_eq_lt.mp order
    show Holds ⟨m, false, true⟩ _
    exact ⟨le, lt_succ, iff_of_false Bool.false_ne_true (by rw [half]; omega),
      iff_of_true rfl ⟨by rw [Ne, integral]; exact nonzero, by rw [Ne, exactly]; omega⟩⟩
  | eq =>
    have equal := Nat.compare_eq_eq.mp order
    show Holds ⟨m, true, false⟩ _
    exact ⟨le, lt_succ, iff_of_true rfl (half.mpr equal.ge),
      iff_of_false Bool.false_ne_true fun apart => apart.2 (exactly.mpr equal.symm)⟩
  | gt =>
    have above := Nat.compare_eq_gt.mp order
    show Holds ⟨m, true, true⟩ _
    exact ⟨le, lt_succ, iff_of_true rfl (half.mpr above.le),
      iff_of_true rfl ⟨by rw [Ne, integral]; exact nonzero, by rw [Ne, exactly]; omega⟩⟩

/-- A quotient of integers, with its remainder noted. -/
theorem holds_div (num : ℕ) {den : ℕ} (pos : 0 < den) :
    Holds (.ofMantissaAndAccuracy (num / den) (accuracyOfFraction (num % den) den))
      (num / den : ℚ) := by
  have den_ne : (den : ℚ) ≠ 0 := by exact_mod_cast pos.ne'
  have whole : (num : ℚ) = den * (num / den : ℕ) + (num % den : ℕ) := by
    exact_mod_cast (Nat.div_add_mod num den).symm
  have split : (num / den : ℚ) = (num / den : ℕ) + (num % den : ℕ) / (den : ℚ) := by
    rw [div_eq_iff den_ne, add_mul, div_mul_cancel₀ _ den_ne, mul_comm, ← whole]
  rw [split]
  exact holds_accuracyOfFraction _ (Nat.mod_lt num pos)

variable {v : Magnitude} {m₁ m₂ : ℕ} {e₁ e₂ : ℤ}

namespace Magnitude

/-- A product is rounded once. -/
theorem Captures.mul_eq (finite : v.IsFinite) (pos₁ : 0 < m₁) (pos₂ : 0 < m₂)
    (enough : 2 ^ 52 ≤ m₁ * m₂) (captures : v.Captures (m₁ * 2 ^ e₁ * (m₂ * 2 ^ e₂)))
    (sign₁ sign₂ : Sign) :
    UnpackedFloat.mul .binary64 (.finite sign₁ m₁ e₁ pos₁) (.finite sign₂ m₂ e₂ pos₂) =
      v.signed (sign₁ * sign₂) := by
  refine captures.roundWithAccuracy_eq finite.isCanonical ?_ (Or.inl enough) _
  have product : (m₁ * 2 ^ e₁ * (m₂ * 2 ^ e₂) / 2 ^ (e₁ + e₂) : ℚ) = (m₁ * m₂ : ℕ) := by
    rw [zpow_add₀ two_ne_zero]
    push_cast
    field_simp
  rw [product]
  exact holds_exact _

/-- A quotient is computed with as many digits as a mantissa has, unless its exponent is as small as
it can be. -/
theorem enough_digits (pos₁ : 0 < m₁) (pos₂ : 0 < m₂) :
    2 ^ 52 ≤ (divCore .binary64 m₁ e₁ m₂ e₂).1 ∨ (divCore .binary64 m₁ e₁ m₂ e₂).2.1 ≤ -1074 := by
  unfold divCore
  simp only [targetExponent_eq, totalExponent]
  generalize target : min (e₁ - e₂) _ = t
  have bound : t ≤ m₁.log2 + 1 + e₁ - (m₂.log2 + 1 + e₂) - 53 ∨ t ≤ -1074 := by
    rw [← le_max_iff, ← target]
    exact min_le_right _ _
  refine bound.imp_left fun le => ?_
  rw [Nat.shiftLeft_eq, Nat.le_div_iff_mul_le pos₂]
  calc 2 ^ 52 * m₂ ≤ 2 ^ 52 * 2 ^ (m₂.log2 + 1) := by gcongr; exact Nat.lt_log2_self.le
    _ = 2 ^ (m₂.log2 + 53) := by ring
    _ ≤ 2 ^ (m₁.log2 + (e₁ - e₂ - t).toNat) := Nat.pow_le_pow_right two_pos (by omega)
    _ = 2 ^ m₁.log2 * 2 ^ (e₁ - e₂ - t).toNat := by rw [pow_add]
    _ ≤ m₁ * 2 ^ (e₁ - e₂ - t).toNat := by gcongr; exact Nat.log2_self_le pos₁.ne'

/-- A quotient is rounded once. -/
theorem Captures.div_eq (finite : v.IsFinite) (pos₁ : 0 < m₁) (pos₂ : 0 < m₂)
    (captures : v.Captures (m₁ * 2 ^ e₁ / (m₂ * 2 ^ e₂))) (sign₁ sign₂ : Sign) :
    UnpackedFloat.div .binary64 (.finite sign₁ m₁ e₁ pos₁) (.finite sign₂ m₂ e₂ pos₂) =
      v.signed (sign₁ / sign₂) := by
  refine captures.roundWithAccuracy_eq finite.isCanonical ?_ ?_ _
  · rw [Nat.shiftLeft_eq]
    generalize target : min (e₁ - e₂) _ = t
    have le : t ≤ e₁ - e₂ := target ▸ min_le_left _ _
    have quotient : (m₁ * 2 ^ e₁ / (m₂ * 2 ^ e₂) / 2 ^ t : ℚ) =
        (m₁ * 2 ^ (e₁ - e₂ - t).toNat : ℕ) / m₂ := by
      have scale : (2 : ℚ) ^ e₁ = 2 ^ (e₁ - e₂ - t).toNat * (2 ^ e₂ * 2 ^ t) := by
        rw [← zpow_natCast, ← zpow_add₀ two_ne_zero, ← zpow_add₀ two_ne_zero]
        congr 1
        omega
      push_cast
      rw [scale]
      field_simp
    rw [quotient]
    exact holds_div _ pos₂
  · exact enough_digits pos₁ pos₂

/-! ### Integers and powers of ten -/

/-- The size of an integer with at most 53 binary digits. -/
def ofNat (m : ℕ) : Magnitude := ⟨m * 2 ^ (52 - m.log2), m.log2 - 52⟩

/-- The size of one of the powers of ten that are doubles. -/
def tenPow (k : ℕ) : Magnitude :=
  ⟨5 ^ k * 2 ^ (k + 52 - (10 ^ k).log2), (10 ^ k).log2 - 52⟩

/-- A size is normal if its mantissa is full. -/
structure IsNormal (v : Magnitude) : Prop extends v.IsFinite where
  normal : 2 ^ 52 ≤ v.mantissa

theorem IsNormal.value_pos {v : Magnitude} (normal : v.IsNormal) : 0 < v.value :=
  value_pos_iff.mpr (Nat.lt_of_lt_of_le (by norm_num) normal.normal)

theorem isNormal_ofNat {m : ℕ} (pos : 0 < m) (lt : m < 2 ^ 53) : (ofNat m).IsNormal := by
  have digits : m.log2 ≤ 52 := Nat.le_of_lt_succ ((Nat.log2_lt pos.ne').mpr lt)
  have least : 2 ^ 52 ≤ m * 2 ^ (52 - m.log2) := by
    calc 2 ^ 52 = 2 ^ m.log2 * 2 ^ (52 - m.log2) := by rw [← pow_add]; congr 1; omega
      _ ≤ m * 2 ^ (52 - m.log2) := by gcongr; exact Nat.log2_self_le pos.ne'
  have greatest : m * 2 ^ (52 - m.log2) < 2 ^ 53 := by
    calc m * 2 ^ (52 - m.log2) < 2 ^ (m.log2 + 1) * 2 ^ (52 - m.log2) := by
          gcongr; exact Nat.lt_log2_self
      _ = 2 ^ 53 := by rw [← pow_add]; congr 1; omega
  refine ⟨⟨greatest, ?_, ?_, Or.inl least⟩, least⟩ <;> dsimp only [ofNat] <;> omega

theorem value_ofNat {m : ℕ} (pos : 0 < m) (lt : m < 2 ^ 53) : (ofNat m).value = m := by
  have digits : m.log2 ≤ 52 := Nat.le_of_lt_succ ((Nat.log2_lt pos.ne').mpr lt)
  have scale : (2 : ℚ) ^ (52 - m.log2) * 2 ^ (m.log2 - 52 : ℤ) = 1 := by
    rw [← zpow_natCast, ← zpow_add₀ two_ne_zero, Nat.cast_sub digits]
    push_cast
    rw [sub_add_sub_cancel, sub_self, zpow_zero]
  rw [value, ofNat]
  push_cast
  rw [mul_assoc, scale, mul_one]

theorem tenPow_bounds : ∀ k : Fin 23, (10 ^ k.val).log2 ≤ k.val + 52 ∧
    2 ^ 52 ≤ (tenPow k).mantissa ∧ (tenPow k).mantissa < 2 ^ 53 := by
  decide +kernel

theorem isNormal_tenPow {k : ℕ} (lt : k < 23) : (tenPow k).IsNormal := by
  obtain ⟨digits, least, greatest⟩ := tenPow_bounds ⟨k, lt⟩
  refine ⟨⟨greatest, ?_, ?_, Or.inl least⟩, least⟩ <;> dsimp only [tenPow] at * <;> omega

theorem value_tenPow {k : ℕ} (lt : k < 23) : (tenPow k).value = 10 ^ k := by
  have digits := (tenPow_bounds ⟨k, lt⟩).1
  dsimp only at digits
  have scale : (2 : ℚ) ^ (k + 52 - (10 ^ k).log2) * 2 ^ ((10 ^ k).log2 - 52 : ℤ) = 2 ^ k := by
    rw [← zpow_natCast, ← zpow_add₀ two_ne_zero, Nat.cast_sub digits, ← zpow_natCast]
    congr 1
    push_cast
    ring
  rw [value, tenPow]
  push_cast
  rw [mul_assoc, scale, ← mul_pow]
  norm_num

end Magnitude

/-! ### Doubles -/

/-- A number held as an integer with a power of two is rounded to the size that captures it. -/
theorem Magnitude.Captures.round_eq {v : Magnitude} (canonical : v.IsCanonical) {m : ℕ}
    (pos : 0 < m) {e : ℤ} (captures : v.Captures (m * 2 ^ e)) (sign : Sign) :
    UnpackedFloat.round .binary64 sign m e = v.signed sign := by
  rw [UnpackedFloat.round, decreaseExponent, targetExponent_eq, totalExponent]
  generalize amount : (e - max (m.log2 + 1 + e - 53 : ℤ) (-1074)).toNat = count
  refine captures.roundWithAccuracy_eq canonical ?_ ?_ sign
  · have shifted : (m * 2 ^ e / 2 ^ (e - count) : ℚ) = (m <<< count : ℕ) := by
      rw [zpow_sub₀ two_ne_zero, Nat.shiftLeft_eq, zpow_natCast]
      push_cast
      field_simp
    rw [shifted]
    exact holds_exact _
  · rcases le_or_gt (m.log2 + 1 + e - 53 : ℤ) (-1074) with least | more
    · right
      omega
    · left
      calc 2 ^ 52 ≤ 2 ^ (m.log2 + count) := Nat.pow_le_pow_right two_pos (by omega)
        _ = 2 ^ m.log2 * 2 ^ count := by rw [pow_add]
        _ ≤ m * 2 ^ count := by gcongr; exact Nat.log2_self_le pos.ne'
        _ = m <<< count := (Nat.shiftLeft_eq m count).symm

theorem round_ofNat {m : ℕ} (pos : 0 < m) (lt : m < 2 ^ 53) (sign : Sign) :
    UnpackedFloat.round .binary64 sign m 0 = (Magnitude.ofNat m).signed sign := by
  have captures := Magnitude.captures_value (.ofNat m)
  rw [Magnitude.value_ofNat pos lt, ← mul_one (m : ℚ), ← zpow_zero 2] at captures
  exact captures.round_eq (Magnitude.isNormal_ofNat pos lt).isCanonical pos sign

/-- An integer with at most 53 binary digits is turned into a double exactly. -/
theorem toFloat_toUInt64 {m : ℕ} (pos : 0 < m) (lt : m < 2 ^ 53) :
    m.toUInt64.toFloat = (Magnitude.ofNat m).double := by
  have word : m.toUInt64.toNat = m := by
    show m % 2 ^ 64 = m
    omega
  have order : compare (m : ℤ) 0 = .gt := Int.compare_eq_gt.mpr (by omega)
  show Float.ofModel (.pack (UnpackedFloat.normalize .binary64 m.toUInt64.toNat 0 .positive)) = _
  rw [word, UnpackedFloat.normalize, order, Magnitude.double, ← round_ofNat pos lt]
  rfl

/-- The tabulated powers of ten are exact. -/
theorem exactlyRepresentablePowersOfTen_eq : ∀ k : Fin 23,
    Float.exactlyRepresentablePowersOfTen[k] = (Magnitude.tenPow k).double := by
  decide +kernel

theorem Magnitude.IsNormal.unpack_pack {v : Magnitude} (normal : v.IsNormal) (sign : Sign) :
    ∃ pos, UnpackedFloat.unpack .binary64 (UnpackedFloat.pack .binary64 (v.signed sign)) =
      .finite sign v.mantissa v.exponent pos := by
  have pos : 0 < v.mantissa := Nat.lt_of_lt_of_le (by norm_num) normal.normal
  exact ⟨pos, (unpack_pack_signed normal.toIsFinite sign).trans (dif_neg pos.ne')⟩

namespace Magnitude

variable {a b : Magnitude}

/-- A product of doubles, one of them with a full mantissa, is rounded once. -/
theorem double_mul (finite₁ : a.IsFinite) (normal₂ : b.IsNormal) (finite : v.IsFinite)
    (captures : v.Captures (a.value * b.value)) : a.double * b.double = v.double := by
  obtain ⟨pos, unpacked⟩ := normal₂.unpack_pack .positive
  show Float.ofModel (.pack (UnpackedFloat.mul .binary64
    (UnpackedFloat.unpack .binary64 (UnpackedFloat.pack .binary64 (a.signed .positive)))
    (UnpackedFloat.unpack .binary64 (UnpackedFloat.pack .binary64 (b.signed .positive))))) = _
  rw [unpack_pack_signed finite₁, unpacked]
  rcases Nat.eq_zero_or_pos a.mantissa with zero | nonzero
  · rw [value_of_mantissa_eq_zero zero, zero_mul, ← value_zero] at captures
    rw [captures.eq_of_value finite.isCanonical isFinite_zero.isCanonical, signed_of_eq_zero zero]
    rfl
  · rw [signed_of_pos nonzero, captures.mul_eq finite nonzero pos
      (Nat.le_trans normal₂.normal (Nat.le_mul_of_pos_left _ nonzero))]
    rfl

/-- A quotient of doubles is rounded once. -/
theorem double_div (finite₁ : a.IsFinite) (finite₂ : b.IsFinite) (pos : 0 < b.value)
    (finite : v.IsFinite) (captures : v.Captures (a.value / b.value)) :
    a.double / b.double = v.double := by
  rw [value_pos_iff] at pos
  show Float.ofModel (.pack (UnpackedFloat.div .binary64
    (UnpackedFloat.unpack .binary64 (UnpackedFloat.pack .binary64 (a.signed .positive)))
    (UnpackedFloat.unpack .binary64 (UnpackedFloat.pack .binary64 (b.signed .positive))))) = _
  rw [unpack_pack_signed finite₁, unpack_pack_signed finite₂, signed_of_pos pos]
  rcases Nat.eq_zero_or_pos a.mantissa with zero | nonzero
  · rw [value_of_mantissa_eq_zero zero, zero_div, ← value_zero] at captures
    rw [captures.eq_of_value finite.isCanonical isFinite_zero.isCanonical, signed_of_eq_zero zero]
    rfl
  · rw [signed_of_pos nonzero, captures.div_eq finite nonzero pos]
    rfl

end Magnitude

/-- Computed with integers, an integer with a power of ten is rounded once. -/
theorem unpacked_ofScientific_eq {v : Magnitude} (finite : v.IsFinite) {m : ℕ} (pos : 0 < m) {e : ℤ}
    (least : -2048 ≤ e) (greatest : e ≤ 2048) (captures : v.Captures (m * 10 ^ e)) :
    UnpackedFloat.ofScientific .binary64 m e = v.signed .positive := by
  unfold UnpackedFloat.ofScientific
  rw [dif_neg pos.ne', if_neg (by show ¬e > 2 ^ 11; omega),
    if_neg (by show ¬e < -(2 ^ 11 + (m.log2 : ℤ)); omega)]
  split
  · rename_i nonneg
    have number (count : ℕ) : ((m <<< count : ℕ) : ℚ) * 2 ^ (-count : ℤ) *
        ((10 ^ e.toNat : ℕ) * 2 ^ (0 : ℤ)) = m * 10 ^ e := by
      have power : ((10 ^ e.toNat : ℕ) : ℚ) = 10 ^ e := by
        rw [Nat.cast_pow, ← zpow_natCast, Int.toNat_of_nonneg nonneg]
        rfl
      rw [power, Nat.shiftLeft_eq, Nat.cast_mul, Nat.cast_pow, zpow_neg, zpow_natCast, zpow_zero,
        mul_one, Nat.cast_two, mul_inv_cancel_right₀ (by positivity)]
    have enough : 2 ^ 52 ≤ m <<< Format.binary64.mantissaBits * 10 ^ e.toNat := by
      rw [Nat.shiftLeft_eq]
      calc 2 ^ 52 ≤ 1 * 2 ^ 53 * 1 := by norm_num
        _ ≤ m * 2 ^ 53 * 10 ^ e.toNat := by gcongr; exacts [pos, Nat.one_le_pow _ _ (by norm_num)]
    rw [← number Format.binary64.mantissaBits] at captures
    exact captures.mul_eq finite _ _ enough .positive .positive
  · rename_i negative
    have number : (m : ℚ) * 2 ^ (0 : ℤ) / ((10 ^ (-e).toNat : ℕ) * 2 ^ (0 : ℤ)) = m * 10 ^ e := by
      have power : ((10 ^ (-e).toNat : ℕ) : ℚ) = (10 ^ e)⁻¹ := by
        rw [Nat.cast_pow, ← zpow_natCast, Int.toNat_of_nonneg (by omega), ← zpow_neg]
        rfl
      rw [power, zpow_zero, mul_one, mul_one, div_inv_eq_mul]
    rw [← number] at captures
    exact captures.div_eq finite _ _ .positive .positive

/-- An integer with a power of ten is turned into the double whose rounding interval holds it. -/
theorem ofScientific_eq {v : Magnitude} (finite : v.IsFinite) {m : ℕ} (pos : 0 < m) {e : ℤ}
    (least : -2048 ≤ e) (greatest : e ≤ 2048) (captures : v.Captures (m * 10 ^ e)) :
    Float.ofScientific m (e < 0) e.natAbs = v.double := by
  rw [Float.ofScientific]
  split
  · rename_i small
    obtain ⟨lt, power⟩ := small
    have power : e.natAbs < 23 := by omega
    have table := exactlyRepresentablePowersOfTen_eq ⟨e.natAbs, power⟩
    have normal₁ := Magnitude.isNormal_ofNat pos lt
    have normal₂ := Magnitude.isNormal_tenPow power
    dsimp only [Fin.getElem_fin] at table ⊢
    rw [toFloat_toUInt64 pos lt, table]
    split
    · rename_i negative
      refine Magnitude.double_div normal₁.toIsFinite normal₂.toIsFinite normal₂.value_pos finite ?_
      rw [Magnitude.value_ofNat pos lt, Magnitude.value_tenPow power, div_eq_mul_inv,
        ← zpow_natCast, ← zpow_neg,
        Int.ofNat_natAbs_of_nonpos (of_decide_eq_true negative).le, neg_neg]
      exact captures
    · rename_i nonneg
      refine Magnitude.double_mul normal₁.toIsFinite normal₂ finite ?_
      rw [Magnitude.value_ofNat pos lt, Magnitude.value_tenPow power, ← zpow_natCast,
        Int.natAbs_of_nonneg (by simpa using nonneg)]
      exact captures
  · have power : (if decide (e < 0) then Int.negOfNat e.natAbs else Int.ofNat e.natAbs) = e := by
      split <;> rename_i sign <;> simp only [decide_eq_true_eq] at sign
      · rw [Int.negOfNat_eq, Int.ofNat_eq_natCast]
        omega
      · rw [Int.ofNat_eq_natCast]
        omega
    show Float.ofModel (.pack (UnpackedFloat.ofScientific .binary64 m
      (if decide (e < 0) then Int.negOfNat e.natAbs else Int.ofNat e.natAbs))) = _
    rw [power, unpacked_ofScientific_eq finite pos least greatest captures]
    rfl

end Lindenmayer.Decimal
