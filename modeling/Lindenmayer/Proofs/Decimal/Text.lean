import Mathlib.Algebra.Group.Nat.Defs
import Mathlib.Data.List.TakeWhile
import Lindenmayer.Decimal.Numeral
import Lindenmayer.Decimal.Text
import Lindenmayer.Proofs.Text.Fields

/-!
# The text of a decimal

A positional decimal is made of digits and at most one point, and it is read as the decimal that it
was written for.
-/

namespace Lindenmayer.Decimal

/-! ### Digits and a point -/

/-- Digits before a point and digits behind it; without any behind it, there is no point. -/
def positionalText (whole fraction : List Char) : List Char :=
  if fraction = [] then whole else whole ++ '.' :: fraction

theorem Numeral.valueOf_append (ds es : List Char) :
    valueOf (ds ++ es) = Nat.ofDigitChars 10 es (valueOf ds) :=
  Nat.ofDigitChars_append 0

theorem Numeral.valueOf_toDigits (n : Nat) : valueOf (Nat.toDigits 10 n) = n :=
  Nat.ofDigitChars_ten_toDigits

theorem Numeral.valueOf_replicate_zero_append (count : Nat) (ds : List Char) :
    valueOf (List.replicate count '0' ++ ds) = valueOf ds := by
  have zeros : valueOf (List.replicate count '0') = 0 := by
    rw [valueOf, ← Nat.ofDigitChars_eq_foldl, Nat.ofDigitChars_replicate_zero, Nat.mul_zero]
  rw [valueOf_append, zeros]
  rfl

/-- The text of a decimal has one place behind the point for each negative power of ten, and its
digits write the decimal scaled up by these places. -/
theorem Scaled.positional_eq (d : Scaled) :
    ∃ whole fraction, d.positional = positionalText whole fraction ∧ whole ≠ [] ∧
      (∀ c ∈ whole ++ fraction, c.isDigit = true) ∧ fraction.length = (-d.exponent).toNat ∧
      Numeral.valueOf (whole ++ fraction) = d.digits * 10 ^ d.exponent.toNat := by
  have digit : ∀ c ∈ Nat.toDigits 10 d.digits, c.isDigit = true := fun c member =>
    Nat.isDigit_of_mem_toDigits (by decide) (by decide) member
  have zero : ∀ count, ∀ c ∈ List.replicate count '0', c.isDigit = true := fun count =>
    List.forall_mem_replicate.mpr (Or.inr (by decide))
  simp only [positional]
  split
  · rename_i noFraction
    refine ⟨Nat.toDigits 10 d.digits ++ List.replicate d.exponent.toNat '0', [], rfl,
      by simp [Nat.toDigits_ne_nil], ?_, noFraction.symm, ?_⟩
    · rw [List.append_nil]
      exact List.forall_mem_append.mpr ⟨digit, zero _⟩
    · rw [List.append_nil, Numeral.valueOf_append, Nat.ofDigitChars_replicate_zero,
        Numeral.valueOf_toDigits, Nat.mul_comm]
  rename_i hasFraction
  have whole : d.exponent.toNat = 0 := by omega
  rw [whole, Nat.pow_zero, Nat.mul_one]
  split
  · rename_i short
    have nonempty : List.replicate ((-d.exponent).toNat - (Nat.toDigits 10 d.digits).length) '0' ++
        Nat.toDigits 10 d.digits ≠ [] := by simp [Nat.toDigits_ne_nil]
    refine ⟨['0'], _, (if_neg nonempty).symm, by simp, ?_, ?_, ?_⟩
    · exact List.forall_mem_append.mpr ⟨zero 1, List.forall_mem_append.mpr ⟨zero _, digit⟩⟩
    · rw [List.length_append, List.length_replicate]
      omega
    · calc
        _ = Numeral.valueOf (List.replicate ((-d.exponent).toNat -
              (Nat.toDigits 10 d.digits).length) '0' ++ Nat.toDigits 10 d.digits) :=
          Numeral.valueOf_replicate_zero_append 1 _
        _ = d.digits := by
          rw [Numeral.valueOf_replicate_zero_append, Numeral.valueOf_toDigits]
  · rename_i long
    have nonempty : (Nat.toDigits 10 d.digits).drop
        ((Nat.toDigits 10 d.digits).length - (-d.exponent).toNat) ≠ [] := by
      rw [Ne, List.drop_eq_nil_iff]
      omega
    refine ⟨_, _, (if_neg nonempty).symm, ?_, ?_, ?_, ?_⟩
    · rw [Ne, List.take_eq_nil_iff, not_or]
      exact ⟨by omega, Nat.toDigits_ne_nil⟩
    · rw [List.take_append_drop]
      exact digit
    · rw [List.length_drop]
      omega
    · rw [List.take_append_drop, Numeral.valueOf_toDigits]

/-! ### Reading positional text -/

namespace Numeral

theorem splitSign_cons_of_isDigit {c : Char} (digit : c.isDigit = true) (cs : List Char) :
    splitSign (c :: cs) = (false, c :: cs) := by
  unfold splitSign
  split
  · rename_i minus
    rw [(List.cons.inj minus).1] at digit
    cases digit
  · rename_i plus
    rw [(List.cons.inj plus).1] at digit
    cases digit
  · rfl

section

variable {whole fraction : List Char} (digit : ∀ c ∈ whole ++ fraction, c.isDigit = true)
include digit

theorem takeWhile_positionalText :
    (positionalText whole fraction).takeWhile Char.isDigit = whole := by
  have first : ∀ c ∈ whole, c.isDigit = true := fun c member =>
    digit c (List.mem_append_left _ member)
  unfold positionalText
  split
  · exact List.takeWhile_eq_self_iff.mpr first
  · rw [List.takeWhile_append_of_pos first, List.takeWhile_cons_of_neg (by decide),
      List.append_nil]

/-- Behind the digits in front come those of the fraction, and nothing is left. -/
theorem splitFraction_positionalText :
    splitFraction ((positionalText whole fraction).dropWhile Char.isDigit) = (fraction, []) := by
  have first : ∀ c ∈ whole, c.isDigit = true := fun c member =>
    digit c (List.mem_append_left _ member)
  have second : ∀ c ∈ fraction, c.isDigit = true := fun c member =>
    digit c (List.mem_append_right _ member)
  unfold positionalText
  split
  · rename_i noFraction
    rw [List.dropWhile_eq_nil_iff.mpr first, noFraction]
    rfl
  · rw [List.dropWhile_append_of_pos first, List.dropWhile_cons_of_neg (by decide), splitFraction,
      List.takeWhile_eq_self_iff.mpr second, List.dropWhile_eq_nil_iff.mpr second]

/-- A positional text is read as its digits, scaled down by the places behind the point. -/
theorem parse?_positionalText (nonempty : whole ≠ []) (negative : Bool) :
    parse? (if negative then '-' :: positionalText whole fraction
      else positionalText whole fraction) =
      some ⟨negative, valueOf (whole ++ fraction), -fraction.length⟩ := by
  have sign : splitSign (if negative then '-' :: positionalText whole fraction
      else positionalText whole fraction) = (negative, positionalText whole fraction) := by
    cases negative with
    | true => rfl
    | false =>
      obtain ⟨c, rest, rfl⟩ := List.exists_cons_of_ne_nil nonempty
      have unsigned := splitSign_cons_of_isDigit (digit c (by simp))
      simp only [Bool.false_eq_true, if_false, positionalText]
      split <;> exact unsigned _
  simp [parse?, sign, takeWhile_positionalText digit, splitFraction_positionalText digit, power?,
    nonempty]

end

end Numeral

/-! ### Text of doubles -/

/-- The decimal that a size is written as. -/
def Magnitude.decimal (v : Magnitude) : Scaled := if v.mantissa = 0 then ⟨0, 0⟩ else v.shortest

theorem Magnitude.text_eq (v : Magnitude) : v.text = v.decimal.positional := by
  unfold text decimal
  split <;> rfl

theorem isNaN_eq_false {x : Float} (finite : x.isFinite = true) : x.isNaN = false := by
  unfold Float.isNaN Float.Model.isNaN
  unfold Float.isFinite Float.Model.isFinite at finite
  cases unpacked : x.toModel.unpack <;> rw [unpacked] at finite <;> first | rfl | cases finite

theorem isInf_eq_false {x : Float} (finite : x.isFinite = true) : x.isInf = false := by
  unfold Float.isInf Float.Model.isInf
  unfold Float.isFinite Float.Model.isFinite at finite
  cases unpacked : x.toModel.unpack <;> rw [unpacked] at finite <;> first | rfl | cases finite

/-- The text of a finite double is that of its size, behind a sign if it is negative. -/
theorem text_of_isFinite {x : Float} (finite : x.isFinite = true) :
    (text x).toList = if isNegative x then '-' :: (Magnitude.ofFloat x).decimal.positional
      else (Magnitude.ofFloat x).decimal.positional := by
  simp only [text, isNaN_eq_false finite, isInf_eq_false finite, Magnitude.text_eq,
    Bool.false_eq_true, if_false, String.toList_ofList]

/-- The text of a finite double is read as a numeral: its sign, and the digits of the shortest
decimal, scaled down by the places behind the point. -/
theorem read?_text {x : Float} (finite : x.isFinite = true) :
    read? (text x).toList = some (Numeral.toFloat ⟨isNegative x,
      (Magnitude.ofFloat x).decimal.digits * 10 ^ (Magnitude.ofFloat x).decimal.exponent.toNat,
      min (Magnitude.ofFloat x).decimal.exponent 0⟩) := by
  obtain ⟨whole, fraction, text, nonempty, digit, places, value⟩ :=
    (Magnitude.ofFloat x).decimal.positional_eq
  have scale : -(fraction.length : Int) = min (Magnitude.ofFloat x).decimal.exponent 0 := by
    omega
  rw [read?, text_of_isFinite finite, text, Numeral.parse?_positionalText digit nonempty, value,
    scale]
  rfl

/-- A character of a numeral separates nothing. -/
theorem separates_nothing {c : Char} (numeral : c.isDigit = true ∨ c = '.' ∨ c = '-') :
    Text.isBlank c = false ∧ c ≠ ';' := by
  rcases numeral with digit | rfl | rfl
  · have range : 48 ≤ c.toNat ∧ c.toNat ≤ 57 := by
      simpa [Char.isDigit, UInt32.le_iff_toNat_le] using digit
    refine ⟨?_, ?_⟩
    · simp only [Text.isBlank, Bool.or_eq_false_iff, Bool.and_eq_false_iff, beq_eq_false_iff_ne,
        decide_eq_false_iff_not]
      omega
    · rintro rfl
      cases digit
  · decide
  · decide

theorem numeral_of_mem_positional {d : Scaled} {c : Char} (member : c ∈ d.positional) :
    c.isDigit = true ∨ c = '.' ∨ c = '-' := by
  obtain ⟨whole, fraction, text, -, digit, -, -⟩ := d.positional_eq
  rw [text, positionalText] at member
  split at member
  · exact Or.inl (digit c (List.mem_append_left _ member))
  · rcases List.mem_append.mp member with member | member
    · exact Or.inl (digit c (List.mem_append_left _ member))
    · rcases List.mem_cons.mp member with rfl | member
      · exact Or.inr (Or.inl rfl)
      · exact Or.inl (digit c (List.mem_append_right _ member))

theorem positional_ne_nil (d : Scaled) : d.positional ≠ [] := by
  obtain ⟨whole, fraction, text, nonempty, -⟩ := d.positional_eq
  rw [text, positionalText]
  split <;> simp [nonempty]

/-- The text of a finite double holds neither blanks nor semicolons, and is not empty. -/
theorem isField_text {x : Float} (finite : x.isFinite = true) :
    Text.IsField (text x).toList ∧ ';' ∉ (text x).toList := by
  have numeral : ∀ c ∈ (text x).toList, c.isDigit = true ∨ c = '.' ∨ c = '-' := by
    rw [text_of_isFinite finite]
    intro c member
    split at member
    · rcases List.mem_cons.mp member with rfl | member
      · exact Or.inr (Or.inr rfl)
      · exact numeral_of_mem_positional member
    · exact numeral_of_mem_positional member
  have nonempty : (text x).toList ≠ [] := by
    rw [text_of_isFinite finite]
    split <;> simp [positional_ne_nil]
  exact ⟨⟨nonempty, fun c member => (separates_nothing (numeral c member)).1⟩,
    fun member => (separates_nothing (numeral _ member)).2 rfl⟩

end Lindenmayer.Decimal
