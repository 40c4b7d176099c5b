import Lindenmayer.Name.Counter
import Mathlib.Data.List.TakeWhile

/-!
# Counter families

The names that name levels, described by their spelling: a base followed by digits.  The base and
the level of such a name are found again from its plain decimal spelling, so that `canonical` picks
one spelling for each level of each family.
-/

namespace Lindenmayer.Name

/-! ### Digits -/

theorem stem_append_digits {cs digits : List Char} (all : ∀ c ∈ digits, c.isDigit = true) :
    stem (cs ++ digits) = stem cs := by
  simp only [stem, List.reverse_append]
  rw [List.dropWhile_append_of_pos (by simpa using all)]

theorem trailingDigits_append_digits {cs digits : List Char}
    (all : ∀ c ∈ digits, c.isDigit = true) :
    trailingDigits (cs ++ digits) = trailingDigits cs ++ digits := by
  simp only [trailingDigits, List.reverse_append]
  rw [List.takeWhile_append_of_pos (by simpa using all), List.reverse_append, List.reverse_reverse]

theorem isDigit_of_mem_trailingDigits {cs : List Char} {c : Char} (member : c ∈ trailingDigits cs) :
    c.isDigit = true := by
  have inside : c ∈ cs.reverse.takeWhile Char.isDigit := by simpa [trailingDigits] using member
  exact List.mem_takeWhile_imp inside

theorem stem_stem (cs : List Char) : stem (stem cs) = stem cs := by
  have split := stem_append_trailingDigits cs
  calc
    stem (stem cs) = stem (stem cs ++ trailingDigits cs) :=
      (stem_append_digits fun c => isDigit_of_mem_trailingDigits).symm
    _ = stem cs := by rw [split]

theorem trailingDigits_of_stem {cs : List Char} (whole : stem cs = cs) :
    trailingDigits cs = [] := by
  have split := stem_append_trailingDigits cs
  rw [whole] at split
  exact List.append_right_eq_self.mp split

/-- Holding a number at the largest word after each step is the same as doing so once, at the
end. -/
theorem saturatingValue_eq (digits : List Char) :
    saturatingValue digits = saturate (Nat.ofDigitChars 10 digits 0) := by
  suffices general : ∀ value, digits.foldl
      (fun value c => saturate (saturate (value * 10) + digitValue c)) (saturate value) =
        saturate (Nat.ofDigitChars 10 digits value) by
    simpa [saturatingValue, saturate] using general 0
  induction digits with
  | nil => intro value; simp
  | cons c digits ih =>
    intro value
    rw [List.foldl_cons, Nat.ofDigitChars_cons, ← ih]
    congr 1
    simp only [saturate, digitValue]
    omega

/-! ### Bases -/

/-- Names that can be the base of a counter family: variables that do not end in a digit. -/
structure IsBase (base : Name) : Prop where
  spelled : spellsVariable base.chars = true
  stem_eq : stem base.chars = base.chars

theorem IsBase.counter?_eq_none {base : Name} (isBase : base.IsBase) : base.counter? = none := by
  simp [counter?, trailingDigits_of_stem isBase.stem_eq]

theorem spellsVariable_append_digits {cs digits : List Char} (spelled : spellsVariable cs = true)
    (all : ∀ c ∈ digits, c.isDigit = true) : spellsVariable (cs ++ digits) = true := by
  cases cs with
  | nil => simp [spellsVariable] at spelled
  | cons first rest =>
    simp only [spellsVariable, List.cons_append, Bool.and_eq_true, bne_iff_ne] at spelled ⊢
    refine ⟨spelled.1, ?_⟩
    rw [← List.cons_append, List.getLast?_append]
    cases last : digits.getLast? with
    | none => simpa using spelled.2
    | some c =>
      have isDigit := all c (List.mem_of_getLast? last)
      intro equal
      obtain rfl : c = '_' := by simpa using equal
      simp at isDigit

theorem digits_of_counter? {name base : Name} {level : UInt8}
    (found : name.counter? = some (base, level)) :
    base.IsBase ∧ ∃ digits, digits ≠ [] ∧ (∀ c ∈ digits, c.isDigit = true) ∧
      name.chars = base.chars ++ digits ∧ 1 ≤ Nat.ofDigitChars 10 digits 0 ∧
      level.toNat = min (Nat.ofDigitChars 10 digits 0) maxCounterLevel := by
  simp only [counter?, Bool.or_eq_true, Bool.not_eq_true', List.isEmpty_iff] at found
  split at found
  · simp at found
  next spelled =>
    rw [not_or, Bool.not_eq_false] at spelled
    split at found
    · simp at found
    next positive =>
      simp only [Option.some.injEq, Prod.mk.injEq] at found
      obtain ⟨rfl, rfl⟩ := found
      rw [saturatingValue_eq] at positive ⊢
      refine ⟨⟨by simpa using spelled.2, by simpa using stem_stem name.chars⟩,
        trailingDigits name.chars, spelled.1, fun c => isDigit_of_mem_trailingDigits,
        by simpa using (stem_append_trailingDigits name.chars).symm, ?_, ?_⟩
      · simp only [saturate] at positive
        omega
      · simp only [saturate, maxCounterLevel, Nat.toUInt8_eq, UInt8.toNat_ofNat']
        omega

theorem counter?_of_digits {name base : Name} {level : UInt8} {digits : List Char}
    (isBase : base.IsBase) (nonempty : digits ≠ []) (all : ∀ c ∈ digits, c.isDigit = true)
    (spelled : name.chars = base.chars ++ digits) (positive : 1 ≤ Nat.ofDigitChars 10 digits 0)
    (levelEq : level.toNat = min (Nat.ofDigitChars 10 digits 0) maxCounterLevel) :
    name.counter? = some (base, level) := by
  have stemEq : stem name.chars = base.chars := by
    rw [spelled, stem_append_digits all, isBase.stem_eq]
  have digitsEq : trailingDigits name.chars = digits := by
    rw [spelled, trailingDigits_append_digits all, trailingDigits_of_stem isBase.stem_eq,
      List.nil_append]
  have levelValue : (min (saturate (Nat.ofDigitChars 10 digits 0)) maxCounterLevel).toUInt8 =
      level := by
    apply UInt8.toNat_inj.mp
    simp only [levelEq, saturate, maxCounterLevel, Nat.toUInt8_eq, UInt8.toNat_ofNat']
    omega
  have valueNonzero : saturate (Nat.ofDigitChars 10 digits 0) ≠ 0 := by
    simp only [saturate]
    omega
  simp [counter?, stemEq, digitsEq, saturatingValue_eq, nonempty, isBase.spelled, valueNonzero,
    levelValue]

/-- A name is a level of a family exactly when it is the base of the family followed by digits that
do not write zero; levels past the highest one mean the highest one. -/
theorem counter?_eq_some_iff {name base : Name} {level : UInt8} :
    name.counter? = some (base, level) ↔
      base.IsBase ∧ ∃ digits, digits ≠ [] ∧ (∀ c ∈ digits, c.isDigit = true) ∧
        name.chars = base.chars ++ digits ∧ 1 ≤ Nat.ofDigitChars 10 digits 0 ∧
        level.toNat = min (Nat.ofDigitChars 10 digits 0) maxCounterLevel := by
  constructor
  · exact digits_of_counter?
  · intro ⟨isBase, digits, nonempty, all, spelled, positive, levelEq⟩
    exact counter?_of_digits isBase nonempty all spelled positive levelEq

theorem isBase_of_counter? {name base : Name} {level : UInt8}
    (found : name.counter? = some (base, level)) : base.IsBase :=
  (counter?_eq_some_iff.mp found).1

theorem level_pos_of_counter? {name base : Name} {level : UInt8}
    (found : name.counter? = some (base, level)) : 0 < level := by
  obtain ⟨-, digits, -, -, -, positive, levelEq⟩ := counter?_eq_some_iff.mp found
  rw [UInt8.lt_iff_toNat_lt, levelEq, maxCounterLevel]
  simp only [UInt8.toNat_zero]
  omega

/-- Names of levels are variables. -/
theorem isVariable_of_counter? {name base : Name} {level : UInt8}
    (found : name.counter? = some (base, level)) : name.isVariable = true := by
  obtain ⟨isBase, digits, -, all, spelled, -, -⟩ := counter?_eq_some_iff.mp found
  rw [isVariable, spelled]
  exact spellsVariable_append_digits isBase.spelled all

@[simp] theorem counter?_empty : empty.counter? = none := by
  simp [counter?, empty, chars, trailingDigits]

/-! ### Plain decimal spellings -/

theorem chars_atLevel (base : Name) (level : UInt8) :
    (base.atLevel level).chars = base.chars ++ Nat.toDigits 10 level.toNat := by
  simp [atLevel, chars]

/-- The plain decimal spelling of a level names that level. -/
theorem counter?_atLevel {base : Name} {level : UInt8} (isBase : base.IsBase)
    (positive : 0 < level) : (base.atLevel level).counter? = some (base, level) := by
  refine counter?_eq_some_iff.mpr ⟨isBase, Nat.toDigits 10 level.toNat, Nat.toDigits_ne_nil,
    fun c => Nat.isDigit_of_mem_toDigits (by decide) (by decide), chars_atLevel base level, ?_, ?_⟩
  · rw [Nat.ofDigitChars_ten_toDigits]
    rwa [UInt8.lt_iff_toNat_lt] at positive
  · have bound := level.toNat_lt
    rw [Nat.ofDigitChars_ten_toDigits, maxCounterLevel]
    omega

/-- A spelling of a level determines the family and the level. -/
theorem atLevel_inj {base base' : Name} {level level' : UInt8} (isBase : base.IsBase)
    (positive : 0 < level) (isBase' : base'.IsBase) (positive' : 0 < level')
    (equal : base.atLevel level = base'.atLevel level') : base = base' ∧ level = level' := by
  have found := counter?_atLevel isBase positive
  rw [equal, counter?_atLevel isBase' positive'] at found
  simpa [eq_comm] using found

theorem canonical_of_counter? {name base : Name} {level : UInt8}
    (found : name.counter? = some (base, level)) : name.canonical = base.atLevel level := by
  simp [canonical, found]

theorem canonical_of_counter?_eq_none {name : Name} (ordinary : name.counter? = none) :
    name.canonical = name := by
  simp [canonical, ordinary]

@[simp] theorem canonical_empty : empty.canonical = empty :=
  canonical_of_counter?_eq_none counter?_empty

@[simp] theorem canonical_atLevel {base : Name} {level : UInt8} (isBase : base.IsBase)
    (positive : 0 < level) : (base.atLevel level).canonical = base.atLevel level :=
  canonical_of_counter? (counter?_atLevel isBase positive)

/-- Choosing the plain spelling keeps what a name means. -/
@[simp] theorem counter?_canonical (name : Name) : name.canonical.counter? = name.counter? := by
  cases found : name.counter? with
  | none => rw [canonical_of_counter?_eq_none found, found]
  | some family =>
    obtain ⟨base, level⟩ := family
    rw [canonical_of_counter? found]
    exact counter?_atLevel (isBase_of_counter? found) (level_pos_of_counter? found)

end Lindenmayer.Name
