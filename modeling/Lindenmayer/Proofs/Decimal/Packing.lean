import Mathlib
import Lindenmayer.Decimal.Text

/-!
# Doubles as sizes with a sign

A finite double is made of a sign and a size.  Its bits hold them as fields, a size is packed into
these fields, and it is unpacked from them.
-/

open Float.Model Float.Model.UnpackedFloat

namespace Lindenmayer.Decimal

namespace Magnitude

/-- The size of a finite double, zero included.  Its mantissa is full, unless the exponent is as
small as it can be. -/
structure IsFinite (v : Magnitude) : Prop where
  mantissa_lt : v.mantissa < 2 ^ 53
  le_exponent : -1074 ≤ v.exponent
  exponent_le : v.exponent ≤ 971
  full : 2 ^ 52 ≤ v.mantissa ∨ v.exponent = -1074

/-- The size of a double, had its exponent no upper limit. -/
structure IsCanonical (v : Magnitude) : Prop where
  mantissa_lt : v.mantissa < 2 ^ 53
  le_exponent : -1074 ≤ v.exponent
  full : 2 ^ 52 ≤ v.mantissa ∨ v.exponent = -1074

theorem IsFinite.isCanonical {v : Magnitude} (finite : v.IsFinite) : v.IsCanonical :=
  ⟨finite.mantissa_lt, finite.le_exponent, finite.full⟩

/-- The double with the given sign and size. -/
def signed (v : Magnitude) (sign : Sign) : UnpackedFloat :=
  if zero : v.mantissa = 0 then .zero sign
  else .finite sign v.mantissa v.exponent (Nat.pos_of_ne_zero zero)

theorem signed_of_pos {v : Magnitude} (pos : 0 < v.mantissa) (sign : Sign) :
    v.signed sign = .finite sign v.mantissa v.exponent pos :=
  dif_neg pos.ne'

theorem signed_of_eq_zero {v : Magnitude} (zero : v.mantissa = 0) (sign : Sign) :
    v.signed sign = .zero sign :=
  dif_pos zero

/-- The double of a size, with a positive sign. -/
def double (v : Magnitude) : Float := Float.ofModel (.pack (v.signed .positive))

/-- The size of zero. -/
def zero : Magnitude := ⟨0, -1074⟩

theorem isFinite_zero : zero.IsFinite := ⟨by decide, le_rfl, by decide, Or.inr rfl⟩

theorem zero_eq_double : (0 : Float) = zero.double := by
  decide +kernel

/-- The size with the given exponent and fraction fields. -/
def ofFields (field fraction : ℕ) : Magnitude :=
  if field = 0 then ⟨fraction, -1074⟩ else ⟨fractionCount + fraction, field - 1075⟩

theorem isFinite_ofFields {field fraction : ℕ} (field_lt : field < 2047)
    (fraction_lt : fraction < 2 ^ 52) : (ofFields field fraction).IsFinite := by
  unfold ofFields fractionCount
  split
  · refine ⟨?_, le_refl _, by norm_num, Or.inr rfl⟩
    dsimp only
    omega
  · refine ⟨?_, ?_, ?_, Or.inl ?_⟩ <;> dsimp only <;> omega

/-- Every finite size has an exponent and a fraction field. -/
theorem IsFinite.exists_fields {v : Magnitude} (finite : v.IsFinite) :
    ∃ field < 2047, ∃ fraction < 2 ^ 52, ofFields field fraction = v := by
  obtain ⟨mantissa, exponent⟩ := v
  obtain ⟨mantissa_lt, le_exponent, exponent_le, full⟩ := finite
  dsimp only at mantissa_lt le_exponent exponent_le full
  by_cases small : mantissa < 2 ^ 52
  · have least := full.resolve_left (not_le.mpr small)
    exact ⟨0, by norm_num, mantissa, small, by rw [least]; rfl⟩
  · refine ⟨(exponent + 1075).toNat, by omega, mantissa - 2 ^ 52, by omega, ?_⟩
    unfold ofFields fractionCount
    rw [if_neg (by omega), mk.injEq]
    constructor <;> omega

/-- A size is packed into its fields. -/
theorem pack_signed_ofFields {field fraction : ℕ} (field_lt : field < 2047)
    (fraction_lt : fraction < 2 ^ 52) (sign : Sign) :
    UnpackedFloat.pack .binary64 ((ofFields field fraction).signed sign) =
      packComponents .binary64 sign (BitVec.ofNat 11 field) (BitVec.ofNat 52 fraction) := by
  unfold ofFields signed fractionCount
  rcases Nat.eq_zero_or_pos field with rfl | normal
  · simp only [if_true]
    split
    · rename_i zero
      rw [zero]
      rfl
    · have digits : fraction.log2 < 52 := (Nat.log2_lt ‹_›).mpr fraction_lt
      rw [UnpackedFloat.pack]
      simp only
      rw [if_neg (by decide), if_neg (by show ¬fraction.log2 + 1 = 53; omega)]
  · have digits : (4503599627370496 + fraction).log2 = 52 := by
      rw [Nat.log2_eq_iff (by omega)]
      omega
    have biased : ((field : ℤ) - 1075 + (1023 : ℕ) + (52 : ℕ)).toNat = field := by omega
    have implicit : BitVec.ofNat 52 (4503599627370496 + fraction) = BitVec.ofNat 52 fraction := by
      refine BitVec.eq_of_toNat_eq ?_
      rw [BitVec.toNat_ofNat, BitVec.toNat_ofNat]
      omega
    simp only [if_neg normal.ne']
    rw [dif_neg (by omega), UnpackedFloat.pack]
    change (if 2048 ≤ ((field : ℤ) - 1075 + (1023 : ℕ) + (52 : ℕ)).toNat + 1 then _
      else if (4503599627370496 + fraction).log2 + 1 = 53 then
        packComponents .binary64 sign
          (BitVec.ofNat 11 ((field : ℤ) - 1075 + (1023 : ℕ) + (52 : ℕ)).toNat)
          (BitVec.ofNat 52 (4503599627370496 + fraction))
      else _) = _
    rw [biased, digits, implicit, if_neg (by omega), if_pos rfl]

end Magnitude

/-! ### Fields of the bits -/

@[simp]
theorem ofBitVec_toBitVec (sign : Sign) : Sign.ofBitVec sign.toBitVec = sign := by
  cases sign <;> rfl

@[simp]
theorem toBitVec_ofBitVec (bit : BitVec 1) : (Sign.ofBitVec bit).toBitVec = bit := by
  have : bit = 0#1 ∨ bit = 1#1 := by
    have := bit.isLt
    rcases (by omega : bit.toNat = 0 ∨ bit.toNat = 1) with zero | one
    · exact Or.inl (BitVec.eq_of_toNat_eq zero)
    · exact Or.inr (BitVec.eq_of_toNat_eq one)
  rcases this with rfl | rfl <;> rfl

/-- The fields of a double stand one behind the other in its bits. -/
theorem toNat_packComponents (sign : Sign) (field : BitVec 11) (fraction : BitVec 52) :
    (packComponents .binary64 sign field fraction).toNat =
      sign.toBitVec.toNat * 2 ^ 63 + field.toNat * 2 ^ 52 + fraction.toNat := by
  have inner : (sign.toBitVec ++ field).toNat = sign.toBitVec.toNat * 2 ^ 11 + field.toNat := by
    rw [BitVec.toNat_append, ← Nat.shiftLeft_add_eq_or_of_lt field.isLt, Nat.shiftLeft_eq]
  show (sign.toBitVec ++ field ++ fraction).toNat = _
  rw [BitVec.toNat_append, ← Nat.shiftLeft_add_eq_or_of_lt fraction.isLt, Nat.shiftLeft_eq, inner]
  ring

section Fields

variable (bits : BitVec Format.binary64.numBits)

theorem toNat_unpackMantissa : (unpackMantissa bits).toNat = bits.toNat % 2 ^ 52 := by
  rw [unpackMantissa, BitVec.toNat_cast, BitVec.extractLsb_toNat]
  rfl

theorem toNat_unpackExponent : (unpackExponent bits).toNat = bits.toNat / 2 ^ 52 % 2048 := by
  rw [unpackExponent, BitVec.toNat_cast, BitVec.extractLsb_toNat, Nat.shiftRight_eq_div_pow]
  rfl

theorem toNat_unpackSign : (unpackSign bits).toNat = bits.toNat / 2 ^ 63 := by
  have : bits.toNat < 2 ^ 64 := bits.isLt
  rw [unpackSign, BitVec.toNat_cast, BitVec.extractLsb_toNat, Nat.shiftRight_eq_div_pow]
  show bits.toNat / 2 ^ 63 % 2 = _
  omega

/-- The fields make up the bits. -/
theorem packComponents_unpack : packComponents .binary64 (Sign.ofBitVec (unpackSign bits))
    (unpackExponent bits) (unpackMantissa bits) = bits := by
  refine BitVec.eq_of_toNat_eq ?_
  rw [toNat_packComponents, toBitVec_ofBitVec, toNat_unpackSign, toNat_unpackExponent,
    toNat_unpackMantissa]
  omega

theorem unpackSign_packComponents (sign : Sign) (field : BitVec 11) (fraction : BitVec 52) :
    unpackSign (packComponents .binary64 sign field fraction) = sign.toBitVec := by
  refine BitVec.eq_of_toNat_eq ?_
  have := field.isLt
  have := fraction.isLt
  rw [toNat_unpackSign, toNat_packComponents]
  omega

theorem toNat_unpackExponent_lt (finite : unpackExponent bits ≠ -1#11) :
    (unpackExponent bits).toNat < 2047 := by
  refine Nat.lt_of_le_of_ne (Nat.le_of_lt_succ (unpackExponent bits).isLt) fun all => finite ?_
  exact BitVec.eq_of_toNat_eq all

/-- A double is unpacked from its fields, unless it is infinite or not a number. -/
theorem unpack_eq_signed (finite : unpackExponent bits ≠ -1#11) :
    UnpackedFloat.unpack .binary64 bits =
      (Magnitude.ofFields (unpackExponent bits).toNat (unpackMantissa bits).toNat).signed
        (Sign.ofBitVec (unpackSign bits)) := by
  have empty : unpackMantissa bits = 0#52 ↔ (unpackMantissa bits).toNat = 0 :=
    BitVec.toNat_eq
  rw [UnpackedFloat.unpack]
  simp only
  rw [if_neg finite]
  unfold Magnitude.ofFields Magnitude.signed Magnitude.fractionCount
  by_cases subnormal : unpackExponent bits = 0#11
  · rw [if_pos subnormal, subnormal]
    by_cases zero : unpackMantissa bits = 0#52
    · simp only [zero]
      rfl
    · rw [dif_neg zero]
      simp only [BitVec.toNat_ofNat, Nat.zero_mod, if_true]
      rw [dif_neg (fun mantissaZero => zero (empty.mpr mantissaZero))]
      rfl
  · have normal : (unpackExponent bits).toNat ≠ 0 := fun exponentZero =>
      subnormal (BitVec.eq_of_toNat_eq exponentZero)
    have implicit : (1#1 ++ unpackMantissa bits).toNat =
        4503599627370496 + (unpackMantissa bits).toNat := by
      rw [BitVec.toNat_append, ← Nat.shiftLeft_add_eq_or_of_lt (unpackMantissa bits).isLt]
      rfl
    simp only [if_neg subnormal, if_neg normal, implicit]
    rw [dif_neg (by omega)]
    rfl

end Fields

theorem unpack_pack_signed {v : Magnitude} (finite : v.IsFinite) (sign : Sign) :
    UnpackedFloat.unpack .binary64 (UnpackedFloat.pack .binary64 (v.signed sign)) =
      v.signed sign := by
  obtain ⟨field, field_lt, fraction, fraction_lt, rfl⟩ := finite.exists_fields
  rw [Magnitude.pack_signed_ofFields field_lt fraction_lt, unpack_eq_signed]
  · rw [unpackExponent_packComponents, unpackMantissa_packComponents, unpackSign_packComponents,
      ofBitVec_toBitVec, BitVec.toNat_ofNat, BitVec.toNat_ofNat, Nat.mod_eq_of_lt fraction_lt,
      Nat.mod_eq_of_lt (Nat.lt_trans field_lt (by decide))]
  · rw [unpackExponent_packComponents]
    intro all
    have := congrArg BitVec.toNat all
    rw [BitVec.toNat_ofNat] at this
    change field % 2048 = 2047 at this
    omega

/-! ### Doubles -/

/-- The bits of a double. -/
def bitsOf (x : Float) : BitVec Format.binary64.numBits := x.toBits.toBitVec

/-- The sign of a double. -/
def signOf (x : Float) : Sign := if isNegative x then .negative else .positive

theorem signOf_eq (x : Float) : signOf x = Sign.ofBitVec (unpackSign (bitsOf x)) := by
  have range : x.toBits.toNat < 2 ^ 64 := x.toBits.toNat_lt
  have bit : (unpackSign (bitsOf x)).toNat = x.toBits.toNat / 2 ^ 63 := toNat_unpackSign (bitsOf x)
  have negative : isNegative x = true ↔ x.toBits.toNat / 2 ^ 63 = 1 := by
    rw [isNegative, beq_iff_eq, ← UInt64.toNat_inj, UInt64.toNat_shiftRight,
      Nat.shiftRight_eq_div_pow]
    rfl
  unfold signOf Sign.ofBitVec
  rcases (by omega : x.toBits.toNat / 2 ^ 63 = 0 ∨ x.toBits.toNat / 2 ^ 63 = 1) with zero | one
  · have clear : unpackSign (bitsOf x) = 0#1 := BitVec.eq_of_toNat_eq (bit.trans zero)
    rw [if_neg (by rw [negative]; omega), if_pos clear]
  · have set : unpackSign (bitsOf x) = 1#1 := BitVec.eq_of_toNat_eq (bit.trans one)
    rw [if_pos (negative.mpr one), set]
    rfl

theorem ofFloat_eq (x : Float) : Magnitude.ofFloat x =
    .ofFields (unpackExponent (bitsOf x)).toNat (unpackMantissa (bitsOf x)).toNat := by
  rw [toNat_unpackExponent, toNat_unpackMantissa]
  rfl

section Finite

variable {x : Float} (finite : x.isFinite = true)
include finite

theorem unpackExponent_ne_of_isFinite : unpackExponent (bitsOf x) ≠ -1#11 := by
  intro all
  change (UnpackedFloat.unpack .binary64 (bitsOf x)).isFinite = true at finite
  rw [UnpackedFloat.unpack] at finite
  simp only at finite
  rw [if_pos all] at finite
  split at finite <;> cases finite

theorem isFinite_ofFloat : (Magnitude.ofFloat x).IsFinite := by
  rw [ofFloat_eq]
  exact Magnitude.isFinite_ofFields
    (toNat_unpackExponent_lt _ (unpackExponent_ne_of_isFinite finite)) (unpackMantissa _).isLt

/-- A finite double is packed from its size and its sign. -/
theorem ofModel_pack_signed :
    Float.ofModel (.pack ((Magnitude.ofFloat x).signed (signOf x))) = x := by
  have bits :
      UnpackedFloat.pack .binary64 ((Magnitude.ofFloat x).signed (signOf x)) = bitsOf x := by
    rw [ofFloat_eq, signOf_eq, Magnitude.pack_signed_ofFields
      (toNat_unpackExponent_lt _ (unpackExponent_ne_of_isFinite finite)) (unpackMantissa _).isLt,
      BitVec.ofNat_toNat, BitVec.ofNat_toNat, BitVec.setWidth_eq, BitVec.setWidth_eq]
    exact packComponents_unpack (bitsOf x)
  obtain ⟨⟨word, valid⟩⟩ := x
  unfold Float.Model.pack
  simp only [bits]
  rfl

end Finite

/-- Negating a double changes its sign. -/
theorem neg_ofModel_pack_signed {v : Magnitude} (finite : v.IsFinite) (sign : Sign) :
    -Float.ofModel (.pack (v.signed sign)) = Float.ofModel (.pack (v.signed (-sign))) := by
  show Float.ofModel (.pack (UnpackedFloat.neg
    (UnpackedFloat.unpack .binary64 (UnpackedFloat.pack .binary64 (v.signed sign))))) = _
  rw [unpack_pack_signed finite]
  unfold Magnitude.signed
  split <;> rfl

end Lindenmayer.Decimal
