import Mathlib.Data.List.Induction
import Mathlib.Data.Nat.Digits.Defs
import Lindenmayer.Proofs.Name.ByteOrder
import Lindenmayer.Proofs.Name.Families

/-!
# How counter names split

A counter name is a base followed by decimal digits, and there is no more than one way to read it
like that, since bases do not end in digits.  Bases and digits are described here by what is
written: the bytes and characters that a base begins and ends with, and the number that digits write
in decimal notation, however many there are.
-/

namespace Lindenmayer.Name

/-! ### Decimal notation -/

/-- The number that digits write: the last one counts once, the one before it ten times, and so
on. -/
def decimalValue (digits : List Char) : Nat := Nat.ofDigits 10 (digits.reverse.map digitValue)

theorem decimalValue_concat (digits : List Char) (c : Char) :
    decimalValue (digits ++ [c]) = digitValue c + 10 * decimalValue digits := by
  simp [decimalValue, Nat.ofDigits_cons]

/-- Reading digits from the first to the last leads to the number that they write. -/
theorem ofDigitChars_eq_decimalValue (digits : List Char) :
    Nat.ofDigitChars 10 digits 0 = decimalValue digits := by
  induction digits using List.reverseRecOn with
  | nil => rfl
  | append_singleton digits c ih =>
    rw [Nat.ofDigitChars_append, ih, decimalValue_concat, Nat.ofDigitChars_cons,
      Nat.ofDigitChars_nil, digitValue, Nat.add_comm]

theorem isDigit_iff {c : Char} : c.isDigit = true ↔ '0' ≤ c ∧ c ≤ '9' := by
  simp [Char.isDigit, Char.le_def]

/-! ### Bases -/

/-- The spelling of a base: it begins with a byte that is an ASCII capital, and it ends neither in
an underscore nor in an ASCII digit. -/
structure SpellsBase (base : Name) : Prop where
  capital : ∃ byte ∈ base.bytes.head?, 65 ≤ byte ∧ byte ≤ 90
  underscore : base.chars.getLast? ≠ some '_'
  digit : ∀ c ∈ base.chars.getLast?, ¬('0' ≤ c ∧ c ≤ '9')

/-- The first byte of a character tells whether it is an ASCII capital, as those of longer encodings
are beyond ASCII. -/
theorem isUpper_iff_head? {c : Char} :
    c.isUpper = true ↔ ∃ byte ∈ (String.utf8EncodeChar c).head?, 65 ≤ byte ∧ byte ≤ 90 := by
  have capital : c.isUpper = true ↔ 65 ≤ c.val.toNat ∧ c.val.toNat ≤ 90 := decide_eq_true_iff
  have bound := toNat_val_lt c
  rw [capital]
  simp only [String.utf8EncodeChar]
  split_ifs <;>
    simp (disch := omega) only [List.head?_cons, Option.mem_def, Option.some_inj,
      exists_eq_left', UInt8.le_iff_toNat_le, UInt8.toNat_ofNat,
      UInt8.toNat_ofNat', Nat.mod_eq_of_lt] <;>
    omega

theorem stem_eq_iff {cs : List Char} : stem cs = cs ↔ ∀ c ∈ cs.getLast?, ¬c.isDigit = true := by
  rw [stem, ← List.head?_reverse]
  nth_rewrite 2 [← cs.reverse_reverse]
  rw [List.reverse_inj, List.dropWhile_eq_self_iff]
  cases cs.reverse <;> simp

/-- Variables are told by their first byte and their last character. -/
theorem spellsVariable_iff {name : Name} :
    spellsVariable name.chars = true ↔
      (∃ byte ∈ name.bytes.head?, 65 ≤ byte ∧ byte ≤ 90) ∧ name.chars.getLast? ≠ some '_' := by
  rw [bytes_eq_flatMap]
  cases name.chars with
  | nil => simp [spellsVariable]
  | cons c cs =>
    obtain ⟨byte, rest, encoded⟩ :=
      List.exists_cons_of_ne_nil (String.utf8EncodeChar_ne_nil (c := c))
    have first : ((c :: cs).flatMap String.utf8EncodeChar).head? =
        (String.utf8EncodeChar c).head? := by
      rw [List.flatMap_cons, encoded]
      rfl
    rw [first, ← isUpper_iff_head?]
    simp [spellsVariable]

theorem isBase_iff {base : Name} : base.IsBase ↔ base.SpellsBase := by
  have digit : stem base.chars = base.chars ↔
      ∀ c ∈ base.chars.getLast?, ¬('0' ≤ c ∧ c ≤ '9') := by
    simp only [stem_eq_iff, isDigit_iff]
  constructor
  · intro isBase
    obtain ⟨capital, underscore⟩ := spellsVariable_iff.mp isBase.spelled
    exact ⟨capital, underscore, digit.mp isBase.stem_eq⟩
  · intro spells
    exact ⟨spellsVariable_iff.mpr ⟨spells.capital, spells.underscore⟩, digit.mpr spells.digit⟩

/-! ### Splits -/

/-- The name consists of a base and digits that do not write zero. -/
structure Splits (name base : Name) (digits : List Char) : Prop where
  spelled : name.text = base.text ++ String.ofList digits
  spellsBase : base.SpellsBase
  ne_nil : digits ≠ []
  digit : ∀ c ∈ digits, '0' ≤ c ∧ c ≤ '9'
  positive : 1 ≤ decimalValue digits

section

variable {name base : Name} {digits : List Char}

theorem Splits.chars_eq (splits : name.Splits base digits) :
    name.chars = base.chars ++ digits := by
  rw [chars, splits.spelled, String.toList_append, String.toList_ofList, chars]

theorem Splits.isDigit (splits : name.Splits base digits) : ∀ c ∈ digits, c.isDigit = true :=
  fun c member => isDigit_iff.mpr (splits.digit c member)

/-- There is only one way to split a name, as all digits at the end belong to the level. -/
theorem Splits.unique {base' : Name} {digits' : List Char} (splits : name.Splits base digits)
    (splits' : name.Splits base' digits') : base = base' ∧ digits = digits' := by
  have bases : base.chars = base'.chars := by
    rw [← (isBase_iff.mpr splits.spellsBase).stem_eq, ← stem_append_digits splits.isDigit,
      ← splits.chars_eq, splits'.chars_eq, stem_append_digits splits'.isDigit,
      (isBase_iff.mpr splits'.spellsBase).stem_eq]
  refine ⟨ext_chars bases, ?_⟩
  have whole := splits.chars_eq
  rw [splits'.chars_eq, bases] at whole
  exact (List.append_cancel_left whole).symm

/-- A name is a counter exactly if it splits. -/
theorem counter?_eq_some_iff_splits {level : UInt8} :
    name.counter? = some (base, level) ↔
      ∃ digits, name.Splits base digits ∧ level.toNat = min (decimalValue digits) 255 := by
  simp only [counter?_eq_some_iff, isBase_iff, ofDigitChars_eq_decimalValue, maxCounterLevel]
  constructor
  · rintro ⟨spells, digits, nonempty, all, chars, positive, level⟩
    refine ⟨digits, ⟨?_, spells, nonempty, fun c member => isDigit_iff.mp (all c member),
      positive⟩, level⟩
    rw [← String.toList_inj, String.toList_append, String.toList_ofList]
    exact chars
  · rintro ⟨digits, splits, level⟩
    exact ⟨splits.spellsBase, digits, splits.ne_nil, splits.isDigit, splits.chars_eq,
      splits.positive, level⟩

theorem counter?_eq_none_iff_splits :
    name.counter? = none ↔ ¬∃ base digits, name.Splits base digits := by
  rw [← not_iff_not, not_not, ← Ne, Option.ne_none_iff_exists']
  constructor
  · rintro ⟨⟨base, level⟩, counter⟩
    obtain ⟨digits, splits, -⟩ := counter?_eq_some_iff_splits.mp counter
    exact ⟨base, digits, splits⟩
  · rintro ⟨base, digits, splits⟩
    refine ⟨(base, (min (decimalValue digits) 255).toUInt8), ?_⟩
    refine counter?_eq_some_iff_splits.mpr ⟨digits, splits, ?_⟩
    rw [Nat.toUInt8_eq, UInt8.toNat_ofNat', Nat.mod_eq_of_lt]
    omega

/-- Whatever the number of digits, holding their value at the largest word makes no difference to
the level. -/
theorem level_saturatingValue (digits : List Char) :
    min (saturatingValue digits) 255 = min (decimalValue digits) 255 := by
  rw [saturatingValue_eq, ofDigitChars_eq_decimalValue, saturate, Nat.min_assoc]
  rfl

end

/-- Counter names split exactly.  A name is a counter if it consists of a base, which begins with an
ASCII capital and ends neither in an underscore nor in a digit, and of digits that do not write
zero; its level is the number that they write, or 255 if that is less.  No other name is a counter,
and none splits in two ways.  Although the value of the digits is held at the largest word, their
number does not matter.  A base is not a counter itself, and followed by the decimal digits of a
level it is a counter of that level. -/
theorem counter?_splits :
    (∀ (name base : Name) (level : UInt8), name.counter? = some (base, level) ↔
      ∃ digits, name.Splits base digits ∧ level.toNat = min (decimalValue digits) 255) ∧
    (∀ name : Name, name.counter? = none ↔ ¬∃ base digits, name.Splits base digits) ∧
    (∀ (name base base' : Name) (digits digits' : List Char), name.Splits base digits →
      name.Splits base' digits' → base = base' ∧ digits = digits') ∧
    (∀ digits : List Char,
      min (saturatingValue digits) 255 = min (decimalValue digits) 255) ∧
    ∀ base : Name, base.SpellsBase → base.counter? = none ∧
      ∀ level : UInt8, 1 ≤ level →
        counter? ⟨base.text ++ toString level.toNat⟩ = some (base, level) := by
  refine ⟨fun _ _ _ => counter?_eq_some_iff_splits, fun _ => counter?_eq_none_iff_splits,
    fun _ _ _ _ _ => Splits.unique, level_saturatingValue, fun base spells => ?bases⟩
  case bases =>
    have isBase := isBase_iff.mpr spells
    refine ⟨isBase.counter?_eq_none, fun level positive => counter?_atLevel isBase ?_⟩
    exact UInt8.lt_iff_toNat_lt.mpr (UInt8.le_iff_toNat_le.mp positive)

/-- A base that does not end in ASCII. -/
def accented : Name := ⟨"S_é"⟩

/-- Digits that write a number beyond the largest word. -/
def overlong : List Char := ['0', '0', '9', '9', '9', '9', '9', '9', '9', '9', '9', '9', '9']

theorem counter?_splits_overlong :
    Splits ⟨"S_é0099999999999"⟩ accented overlong ∧
    counter? ⟨"S_é0099999999999"⟩ = some (accented, 255) ∧
    (∀ base digits, Splits ⟨"S_é0099999999999"⟩ base digits →
      base = accented ∧ digits = overlong) ∧
    accented.SpellsBase ∧ accented.counter? = none ∧
    (1 : UInt8) ≤ 7 ∧
    counter? ⟨accented.text ++ toString (7 : UInt8).toNat⟩ = some (accented, 7) := by
  obtain ⟨counters, -, unique, -, bases⟩ := counter?_splits
  have spells : accented.SpellsBase := isBase_iff.mp ⟨by decide, by decide⟩
  have all : overlong.all Char.isDigit = true := rfl
  have splits : Splits ⟨"S_é0099999999999"⟩ accented overlong :=
    ⟨by decide, spells, by decide,
      fun c member => isDigit_iff.mp (List.all_eq_true.mp all c member), by decide⟩
  obtain ⟨ordinary, leveled⟩ := bases accented spells
  exact ⟨splits, (counters _ _ _).mpr ⟨overlong, splits, by decide⟩,
    fun base digits other => unique _ _ _ _ _ other splits, spells, ordinary, by decide,
    leveled 7 (by decide)⟩

end Lindenmayer.Name
