import Lindenmayer.Proofs.Decimal.Order
import Lindenmayer.Proofs.Decimal.Scientific

/-!
# Arithmetic on doubles that are not negative

A double that is not negative is given by its size.  A sum of such doubles is rounded once, as
products and quotients are, and doubles are compared by the numbers that they stand for.
-/

open Float.Model Float.Model.UnpackedFloat

namespace Lindenmayer.Decimal

namespace Magnitude

variable {a b v : Magnitude}

/-- The size of one. -/
def one : Magnitude := ofNat 1

theorem isFinite_one : one.IsFinite := (isNormal_ofNat one_pos (by norm_num)).toIsFinite

theorem value_one : one.value = 1 := by
  rw [one, value_ofNat one_pos (by norm_num), Nat.cast_one]

theorem one_eq_double : (1 : Float) = one.double := by
  decide +kernel

/-- The greatest integer that is a size together with all integers below it. -/
def ceiling : Magnitude := ⟨2 ^ 52, 1⟩

theorem isFinite_ceiling : ceiling.IsFinite := ⟨by decide, by decide, by decide, Or.inl le_rfl⟩

theorem value_ceiling : ceiling.value = 2 ^ 53 := by
  norm_num [ceiling, value]

/-- Adding one to the greatest of these integers makes no difference. -/
theorem captures_ceiling {q : ℚ} (le : 2 ^ 53 ≤ q) (le_succ : q ≤ 2 ^ 53 + 1) :
    ceiling.Captures q := by
  have gap : ceiling.lowerGap = 1 := rfl
  refine ⟨?_, ?_, fun _ => rfl⟩
  · rw [gap]
    norm_num [ceiling]
    linarith
  · norm_num [ceiling]
    linarith

/-! ### Sums and shares -/

theorem Captures.add_eq {m₁ m₂ : ℕ} {e₁ e₂ : ℤ} (canonical : v.IsCanonical) (pos₁ : 0 < m₁)
    (pos₂ : 0 < m₂) (captures : v.Captures (m₁ * 2 ^ e₁ + m₂ * 2 ^ e₂)) :
    UnpackedFloat.add .binary64 (.finite .positive m₁ e₁ pos₁) (.finite .positive m₂ e₂ pos₂) =
      v.signed .positive := by
  have aligned (m : ℕ) {e : ℤ} (le : min e₁ e₂ ≤ e) :
      ((m <<< (e - min e₁ e₂).toNat : ℕ) * 2 ^ min e₁ e₂ : ℚ) = m * 2 ^ e := by
    have scale : (2 : ℚ) ^ e = 2 ^ (e - min e₁ e₂).toNat * 2 ^ min e₁ e₂ := by
      rw [← zpow_natCast, ← zpow_add₀ two_ne_zero]
      congr 1
      omega
    rw [scale, Nat.shiftLeft_eq]
    push_cast
    ring
  have sum : 0 < m₁ <<< (e₁ - min e₁ e₂).toNat + m₂ <<< (e₂ - min e₁ e₂).toNat := by
    rw [Nat.shiftLeft_eq, Nat.shiftLeft_eq]
    positivity
  have order : compare ((m₁ <<< (e₁ - min e₁ e₂).toNat : ℕ) +
      (m₂ <<< (e₂ - min e₁ e₂).toNat : ℕ) : ℤ) 0 = .gt := Int.compare_eq_gt.mpr (by omega)
  rw [← aligned m₁ (min_le_left _ _), ← aligned m₂ (min_le_right _ _), ← add_mul,
    ← Nat.cast_add] at captures
  show UnpackedFloat.normalize .binary64 ((m₁ <<< (e₁ - min e₁ e₂).toNat : ℕ) +
      (m₂ <<< (e₂ - min e₁ e₂).toNat : ℕ) : ℤ) (min e₁ e₂) .positive = _
  rw [UnpackedFloat.normalize, order]
  exact captures.round_eq canonical sum .positive

/-- A sum of doubles is rounded once. -/
theorem double_add (finite₁ : a.IsFinite) (finite₂ : b.IsFinite) (canonical : v.IsCanonical)
    (captures : v.Captures (a.value + b.value)) : a.double + b.double = v.double := by
  show Float.ofModel (.pack (UnpackedFloat.add .binary64
    (UnpackedFloat.unpack .binary64 (UnpackedFloat.pack .binary64 (a.signed .positive)))
    (UnpackedFloat.unpack .binary64 (UnpackedFloat.pack .binary64 (b.signed .positive))))) = _
  rw [unpack_pack_signed finite₁, unpack_pack_signed finite₂]
  rcases Nat.eq_zero_or_pos a.mantissa with zero | pos
  · rw [value_of_mantissa_eq_zero zero, zero_add] at captures
    rw [captures.eq_of_value canonical finite₂.isCanonical, signed_of_eq_zero zero]
    rcases Nat.eq_zero_or_pos b.mantissa with zero' | pos'
    · rw [signed_of_eq_zero zero', double, signed_of_eq_zero zero']
      rfl
    · rw [signed_of_pos pos', double, signed_of_pos pos']
      rfl
  · rcases Nat.eq_zero_or_pos b.mantissa with zero' | pos'
    · rw [value_of_mantissa_eq_zero zero', add_zero] at captures
      rw [captures.eq_of_value canonical finite₁.isCanonical, signed_of_eq_zero zero',
        signed_of_pos pos, double, signed_of_pos pos]
      rfl
    · rw [signed_of_pos pos, signed_of_pos pos', captures.add_eq canonical pos pos']
      rfl

theorem exists_sum (finite₁ : a.IsFinite) (finite₂ : b.IsFinite) :
    ∃ u : Magnitude, u.IsCanonical ∧ u.Captures (a.value + b.value) ∧
      a.double + b.double = u.double := by
  obtain ⟨u, canonical, captures⟩ := exists_captures (add_nonneg a.value_nonneg b.value_nonneg)
  exact ⟨u, canonical, captures, double_add finite₁ finite₂ canonical captures⟩

/-- A size divided by one that is not below it is at most one. -/
theorem exists_quotient (finite₁ : a.IsFinite) (finite₂ : b.IsFinite) (pos : 0 < b.value)
    (le : a.value ≤ b.value) : ∃ q : Magnitude, q.IsFinite ∧ q.Captures (a.value / b.value) ∧
      q.value ≤ 1 ∧ a.double / b.double = q.double := by
  obtain ⟨q, canonical, captures⟩ := exists_captures (div_nonneg a.value_nonneg b.value_nonneg)
  have part : a.value / b.value ≤ one.value := by
    rw [value_one]
    exact (div_le_one pos).mpr le
  have small := captures.value_le canonical isFinite_one.isCanonical part
  have within := canonical.isFinite_of_value_le isFinite_one small
  rw [value_one] at small
  exact ⟨q, within, captures, small, double_div finite₁ finite₂ pos within captures⟩

/-! ### Comparisons -/

theorem lt_signed_iff (canonical : a.IsCanonical) (canonical' : b.IsCanonical) :
    UnpackedFloat.lt (a.signed .positive) (b.signed .positive) = true ↔ a.value < b.value := by
  rcases Nat.eq_zero_or_pos b.mantissa with zero' | pos'
  · -- Nothing is below zero.
    have least : ¬a.value < b.value := by
      rw [value_of_mantissa_eq_zero zero']
      exact a.value_nonneg.not_gt
    rw [signed_of_eq_zero zero']
    refine iff_of_false ?_ least
    rcases Nat.eq_zero_or_pos a.mantissa with zero | pos
    · rw [signed_of_eq_zero zero]
      exact Bool.false_ne_true
    · rw [signed_of_pos pos]
      exact Bool.false_ne_true
  · rw [signed_of_pos pos']
    rcases Nat.eq_zero_or_pos a.mantissa with zero | pos
    · rw [signed_of_eq_zero zero, value_of_mantissa_eq_zero zero]
      exact iff_of_true rfl (value_pos_iff.mpr pos')
    · rw [signed_of_pos pos, canonical.value_lt_iff canonical']
      show (some ((compare a.exponent b.exponent).then
        (compare a.mantissa b.mantissa)) == some .lt) = true ↔ _
      rw [beq_iff_eq, Option.some_inj, Ordering.then_eq_lt, Int.compare_eq_lt, Int.compare_eq_eq,
        Nat.compare_eq_lt]

theorem double_lt_double (finite₁ : a.IsFinite) (finite₂ : b.IsFinite) :
    a.double < b.double ↔ a.value < b.value := by
  rw [← lt_signed_iff finite₁.isCanonical finite₂.isCanonical]
  show decide (UnpackedFloat.lt
    (UnpackedFloat.unpack .binary64 (UnpackedFloat.pack .binary64 (a.signed .positive)))
    (UnpackedFloat.unpack .binary64 (UnpackedFloat.pack .binary64 (b.signed .positive))) = true) =
      true ↔ _
  rw [unpack_pack_signed finite₁, unpack_pack_signed finite₂, decide_eq_true_eq]

theorem isFinite_double_iff (canonical : v.IsCanonical) :
    v.double.isFinite = true ↔ v.IsFinite := by
  constructor
  · intro finite
    refine ⟨canonical.mantissa_lt, canonical.le_exponent, ?_, canonical.full⟩
    by_contra large
    have pos : 0 < v.mantissa := by
      have := canonical.full.resolve_right (by omega)
      omega
    have field : 2 ^ 11 ≤ (v.exponent + (1023 : ℕ) + (52 : ℕ)).toNat + 1 := by omega
    have packed : UnpackedFloat.pack .binary64 (v.signed .positive) =
        packedInfinity .binary64 .positive := by
      rw [signed_of_pos pos, UnpackedFloat.pack]
      exact if_pos field
    change (UnpackedFloat.unpack .binary64
      (UnpackedFloat.pack .binary64 (v.signed .positive))).isFinite = true at finite
    rw [packed] at finite
    exact absurd finite (by decide)
  · intro finite
    show (UnpackedFloat.unpack .binary64
      (UnpackedFloat.pack .binary64 (v.signed .positive))).isFinite = true
    rw [unpack_pack_signed finite]
    unfold signed
    split <;> rfl

/-! ### Whole parts -/

/-- Cut off towards zero, a number becomes its whole part. -/
theorem roundToInt_eq (m : ℕ) (e : ℤ) :
    UnpackedFloat.roundToInt .positive m e = ⌊(m * 2 ^ e : ℚ)⌋₊ := by
  have shifted : (m * 2 ^ e / 2 ^ (e - (e - 0).toNat) : ℚ) = (m <<< (e - 0).toNat : ℕ) := by
    rw [zpow_sub₀ two_ne_zero, Nat.shiftLeft_eq, zpow_natCast]
    push_cast
    field_simp
  have held := holds_exact (m <<< (e - 0).toNat)
  rw [← shifted] at held
  have coarser : e - (e - 0).toNat ≤ 0 := by omega
  obtain ⟨em, shift, holds⟩ := held.shiftToExponent coarser
  rw [zpow_zero, div_one] at holds
  have whole : ⌊(m * 2 ^ e : ℚ)⌋₊ = em.mantissa :=
    (Nat.floor_eq_iff (by positivity)).mpr ⟨holds.le, holds.lt⟩
  rw [UnpackedFloat.roundToInt, decreaseExponent]
  dsimp only
  rw [shift, whole]
  rfl

/-- Turned into a word, a number that fits in it becomes its whole part. -/
theorem toNat_toUInt64_double (finite : v.IsFinite) (lt : v.value < 2 ^ 64) :
    v.double.toUInt64.toNat = ⌊v.value⌋₊ := by
  show (UnpackedFloat.toUInt64 (UnpackedFloat.unpack .binary64
    (UnpackedFloat.pack .binary64 (v.signed .positive)))).toNat = _
  have fits : ⌊v.value⌋₊ < UInt64.size :=
    (Nat.floor_lt v.value_nonneg).mpr (by exact_mod_cast lt)
  have whole : (v.signed .positive).toInt 0 (UInt64.size - 1) = ⌊v.value⌋₊ := by
    rcases Nat.eq_zero_or_pos v.mantissa with zero | pos
    · rw [signed_of_eq_zero zero, value_of_mantissa_eq_zero zero, Nat.floor_zero]
      rfl
    · rw [signed_of_pos pos]
      exact roundToInt_eq v.mantissa v.exponent
  rw [unpack_pack_signed finite, UnpackedFloat.toUInt64, whole, Int.toNat_natCast,
    UInt64.ofNatClamp, dif_pos fits]
  rfl

theorem sub_positive_zero (u : UnpackedFloat) :
    UnpackedFloat.sub .binary64 u (.zero .positive) = u := by
  cases u with
  | notANumber | infinity | finite => rfl
  | zero sign => cases sign <;> rfl

/-- Taking away nothing leaves a double as it is. -/
theorem double_sub_zero (finite : v.IsFinite) : v.double - zero.double = v.double := by
  show Float.ofModel (.pack (UnpackedFloat.sub .binary64
    (UnpackedFloat.unpack .binary64 (UnpackedFloat.pack .binary64 (v.signed .positive)))
    (UnpackedFloat.unpack .binary64 (UnpackedFloat.pack .binary64 (zero.signed .positive))))) = _
  rw [unpack_pack_signed finite, unpack_pack_signed isFinite_zero,
    signed_of_eq_zero (v := zero) rfl, sub_positive_zero]
  rfl

/-! ### Doubles with a size -/

theorem ofFloat_double (finite : v.IsFinite) : ofFloat v.double = v := by
  obtain ⟨field, field_lt, fraction, fraction_lt, rfl⟩ := finite.exists_fields
  have bits : bitsOf (double (ofFields field fraction)) =
      packComponents .binary64 .positive (BitVec.ofNat 11 field) (BitVec.ofNat 52 fraction) :=
    pack_signed_ofFields field_lt fraction_lt .positive
  rw [ofFloat_eq, bits, unpackExponent_packComponents, unpackMantissa_packComponents,
    BitVec.toNat_ofNat, BitVec.toNat_ofNat, Nat.mod_eq_of_lt fraction_lt,
    Nat.mod_eq_of_lt (Nat.lt_trans field_lt (by decide))]

/-- A positive double is the double of its size. -/
theorem double_ofFloat_of_pos {x : Float} (finite : x.isFinite = true) (pos : 0 < x) :
    (ofFloat x).double = x := by
  have made := ofModel_pack_signed finite
  cases sign : signOf x with
  | positive =>
    rw [sign] at made
    exact made
  | negative =>
    rw [sign] at made
    rw [← made, zero_eq_double] at pos
    change decide (UnpackedFloat.lt
      (UnpackedFloat.unpack .binary64 (UnpackedFloat.pack .binary64 (zero.signed .positive)))
      (UnpackedFloat.unpack .binary64
        (UnpackedFloat.pack .binary64 ((ofFloat x).signed .negative))) = true) = true at pos
    rw [decide_eq_true_eq, unpack_pack_signed isFinite_zero,
      unpack_pack_signed (isFinite_ofFloat finite)] at pos
    rw [signed_of_eq_zero (v := zero) rfl] at pos
    unfold signed at pos
    split at pos <;> exact absurd pos Bool.false_ne_true

end Magnitude

/-- The number that the size of a double stands for. -/
def size (x : Float) : ℚ := (Magnitude.ofFloat x).value

theorem size_double {v : Magnitude} (finite : v.IsFinite) : size v.double = v.value := by
  rw [size, Magnitude.ofFloat_double finite]

theorem exists_eq_double {x : Float} (finite : x.isFinite = true) (pos : 0 < x) :
    ∃ v : Magnitude, v.IsFinite ∧ 0 < v.value ∧ x = v.double := by
  have made := Magnitude.double_ofFloat_of_pos finite pos
  refine ⟨.ofFloat x, isFinite_ofFloat finite, ?_, made.symm⟩
  rw [← made, Magnitude.zero_eq_double,
    Magnitude.double_lt_double Magnitude.isFinite_zero (isFinite_ofFloat finite),
    Magnitude.value_zero] at pos
  exact pos

/-- A sum is finite only if what is added to is finite. -/
theorem isFinite_of_isFinite_add {x y : Float} (finite : (x + y).isFinite = true) :
    x.isFinite = true := by
  have beyond (sign : Sign) (u : UnpackedFloat) (sum : u = .infinity sign ∨ u = .notANumber) :
      (UnpackedFloat.unpack .binary64 (UnpackedFloat.pack .binary64 u)).isFinite = false := by
    rcases sum with rfl | rfl
    · cases sign <;> decide
    · decide
  change (UnpackedFloat.unpack .binary64 (UnpackedFloat.pack .binary64 (UnpackedFloat.add .binary64
    x.toModel.unpack y.toModel.unpack))).isFinite = true at finite
  show x.toModel.unpack.isFinite = true
  generalize x.toModel.unpack = u at finite
  generalize y.toModel.unpack = w at finite
  cases u with
  | zero | finite => rfl
  | notANumber =>
    rw [beyond .positive _ (Or.inr (by cases w <;> rfl))] at finite
    cases finite
  | infinity sign =>
    rw [beyond sign] at finite
    · cases finite
    · cases w with
      | notANumber => exact Or.inr rfl
      | zero | finite => exact Or.inl rfl
      | infinity sign' => exact ite_eq_or_eq _ _ _

end Lindenmayer.Decimal
