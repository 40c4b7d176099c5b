import Lindenmayer.Proofs.Alphabet.Numbering

/-!
# Which names have which symbols

The names that an alphabet knows, and the kind of symbol each of them means, in terms of the
declared names.  Variables and constants may overlap and be spelled in any way: what decides is
whether a name stands for a level of a family, either as a variable or as the plain spelling of a
level up to the highest one.  All other names mean ordinary symbols, those of variables and bases
first.
-/

namespace Lindenmayer

/-! ### Levels by declaration -/

namespace Grammar

/-- Variables declare levels of the family with the given base, and `highest` is the highest. -/
structure Reaches (grammar : Grammar) (base : Name) (highest : UInt8) : Prop where
  declared : ∃ name ∈ grammar.variableNames, name.counter? = some (base, highest)
  covers : ∀ name ∈ grammar.variableNames, ∀ level, name.counter? = some (base, level) →
    level ≤ highest

/-- The name is a base in front of the decimal digits of a level, and the family with this base
reaches the level. -/
def IsLevelName (grammar : Grammar) (name base : Name) (level : UInt8) : Prop :=
  ∃ highest, grammar.Reaches base highest ∧ 1 ≤ level ∧ level ≤ highest ∧
    name = base.atLevel level

/-- The name stands for a level of the family with the given base. -/
def StandsFor (grammar : Grammar) (name base : Name) (level : UInt8) : Prop :=
  (name ∈ grammar.variableNames ∧ name.counter? = some (base, level)) ∨
    grammar.IsLevelName name base level

end Grammar

namespace Alphabet

variable {grammar : Grammar} {name base : Name} {level : UInt8}

theorem highestLevel?_eq_some_iff {highest : UInt8} :
    highestLevel? grammar base = some highest ↔ grammar.Reaches base highest := by
  constructor
  · intro family
    refine ⟨exists_declared_of_highestLevel? family, fun name declared level counter => ?_⟩
    obtain ⟨top, family', below⟩ := highestLevel?_of_mem declared counter
    rw [family, Option.some.injEq] at family'
    rwa [family']
  · intro reaches
    obtain ⟨name, declared, counter⟩ := reaches.declared
    obtain ⟨top, family, below⟩ := highestLevel?_of_mem declared counter
    obtain ⟨other, declared', counter'⟩ := exists_declared_of_highestLevel? family
    have above := reaches.covers other declared' top counter'
    rw [family, UInt8.le_antisymm above below]

theorem isLevelName_iff :
    grammar.IsLevelName name base level ↔
      HasLevel grammar base level ∧ name = base.atLevel level := by
  have positive : 1 ≤ level ↔ 0 < level := by
    rw [UInt8.le_iff_toNat_le, UInt8.lt_iff_toNat_lt]
    exact Iff.rfl
  simp only [Grammar.IsLevelName, HasLevel, highestLevel?_eq_some_iff, positive]
  constructor
  · intro ⟨highest, reaches, above, below, spelled⟩
    exact ⟨⟨highest, reaches, above, below⟩, spelled⟩
  · intro ⟨⟨highest, reaches, above, below⟩, spelled⟩
    exact ⟨highest, reaches, above, below, spelled⟩

theorem mem_bases_of_standsFor (stands : grammar.StandsFor name base level) :
    base ∈ grammar.bases := by
  rw [Grammar.mem_bases]
  rcases stands with ⟨declared, counter⟩ | ⟨highest, reaches, -⟩
  · exact ⟨name, declared, level, counter⟩
  · obtain ⟨other, declared, counter⟩ := reaches.declared
    exact ⟨other, declared, highest, counter⟩

/-- The known names, one kind after the other. -/
theorem knows_iff :
    grammar.Knows name ↔ name ∈ grammar.variableNames ∨ name ∈ grammar.constantNames ∨
      name = Name.empty ∨ name ∈ grammar.bases ∨
        ∃ base level, grammar.IsLevelName name base level := by
  constructor
  · intro known
    cases known with
    | boundary => exact Or.inr (Or.inr (Or.inl rfl))
    | declared declares => exact declares.imp_right Or.inl
    | base declared counter =>
      exact Or.inr (Or.inr (Or.inr (Or.inl (Grammar.mem_bases.mpr ⟨_, declared, _, counter⟩))))
    | level declared counter positive below =>
      obtain ⟨highest, family, reached⟩ := highestLevel?_of_mem declared counter
      have allocated : HasLevel grammar _ _ :=
        ⟨highest, family, positive, UInt8.le_trans below reached⟩
      exact Or.inr (Or.inr (Or.inr (Or.inr ⟨_, _, isLevelName_iff.mpr ⟨allocated, rfl⟩⟩)))
  · rintro (variableName | constant | rfl | family | ⟨base, level, isLevel⟩)
    · exact .declared (Or.inl variableName)
    · exact .declared (Or.inr constant)
    · exact .boundary
    · obtain ⟨other, declared, highest, counter⟩ := Grammar.mem_bases.mp family
      exact .base declared counter
    · obtain ⟨⟨highest, family, positive, below⟩, rfl⟩ := isLevelName_iff.mp isLevel
      obtain ⟨other, declared, counter⟩ := exists_declared_of_highestLevel? family
      exact .level declared counter positive below

/-! ### Symbols of levels -/

section

variable (fits : Fits grammar)
include fits

theorem symbol?_of_standsFor (stands : grammar.StandsFor name base level) :
    (assemble grammar).symbol? name = some (.counter (baseIndex grammar base) level) := by
  rcases stands with ⟨declared, counter⟩ | isLevel
  · exact symbol?_declared fits declared counter
  · obtain ⟨allocated, rfl⟩ := isLevelName_iff.mp isLevel
    exact symbol?_atLevel fits allocated

/-- A name that stands for no level means what it was registered for, even a constant that is
spelled like a level. -/
theorem symbol?_of_not_standsFor (ordinary : ¬∃ base level, grammar.StandsFor name base level) :
    (assemble grammar).symbol? name = (plainRegistry grammar).symbols[name]? := by
  by_cases declared : name ∈ grammar.variableNames
  · cases counter : name.counter? with
    | none => exact symbol?_ordinary fits counter
    | some family => exact absurd ⟨family.1, family.2, Or.inl ⟨declared, counter⟩⟩ ordinary
  · apply symbol?_registered fits declared
    intro ⟨base, level, isLevel⟩
    exact ordinary ⟨base, level, Or.inr (isLevelName_iff.mpr isLevel)⟩

theorem symbol?_of_mem_bases (family : base ∈ grammar.bases) :
    (assemble grammar).symbol? base = some (.plain (baseIndex grammar base)) := by
  obtain ⟨name, declared, level, counter⟩ := Grammar.mem_bases.mp family
  obtain ⟨highest, lookup, -⟩ := highestLevel?_of_mem declared counter
  obtain ⟨symbol, registered⟩ :=
    exists_registered_symbol (mem_plainRegistry_of_highestLevel? lookup)
  obtain ⟨index, -, rfl⟩ := ((indexed_plainRegistry grammar).lookup base symbol).mp registered
  rw [symbol?_ordinary fits (Name.isBase_of_counter? counter).counter?_eq_none, registered,
    baseIndex, familyIndex, registered, Option.getD_some, Symbol.family]

/-- A name without a level is ordinary. -/
theorem exists_plain_of_not_standsFor {symbol : Symbol}
    (ordinary : ¬∃ base level, grammar.StandsFor name base level)
    (lookup : (assemble grammar).symbol? name = some symbol) :
    ∃ index : UInt16, symbol = .plain index ∧
      grammar.numberedNames[index.toNat]? = some name := by
  have registered := lookup
  rw [symbol?_of_not_standsFor fits ordinary] at registered
  obtain ⟨position, -, rfl⟩ := ((indexed_plainRegistry grammar).lookup name symbol).mp registered
  exact ⟨_, rfl, getElem?_numberedNames_of_symbol? fits lookup⟩

theorem symbol?_eq_counter_iff {family : UInt16} :
    (assemble grammar).symbol? name = some (.counter family level) ↔
      ∃ base, grammar.StandsFor name base level ∧
        (assemble grammar).symbol? base = some (.plain family) := by
  constructor
  · intro lookup
    by_cases stands : ∃ base level, grammar.StandsFor name base level
    · obtain ⟨base, level', stands⟩ := stands
      have found := symbol?_of_standsFor fits stands
      rw [lookup, Option.some.injEq] at found
      obtain ⟨rfl, rfl⟩ := Symbol.counter.inj found
      exact ⟨base, stands, symbol?_of_mem_bases fits (mem_bases_of_standsFor stands)⟩
    · obtain ⟨index, equal, -⟩ := exists_plain_of_not_standsFor fits stands lookup
      cases equal
  · intro ⟨base, stands, index⟩
    rw [symbol?_of_mem_bases fits (mem_bases_of_standsFor stands), Option.some.injEq] at index
    rw [symbol?_of_standsFor fits stands, Symbol.plain.inj index]

theorem exists_symbol?_plain_iff :
    (∃ index, (assemble grammar).symbol? name = some (.plain index)) ↔
      (∃ symbol, (assemble grammar).symbol? name = some symbol) ∧
        ¬∃ base level, grammar.StandsFor name base level := by
  constructor
  · intro ⟨index, lookup⟩
    refine ⟨⟨_, lookup⟩, fun ⟨base, level, stands⟩ => ?_⟩
    rw [symbol?_of_standsFor fits stands] at lookup
    cases lookup
  · intro ⟨⟨symbol, lookup⟩, ordinary⟩
    obtain ⟨index, rfl, -⟩ := exists_plain_of_not_standsFor fits ordinary lookup
    exact ⟨index, lookup⟩

end

/-! ### Variables and constants -/

/-- In a list without repetitions, the members of a front part are those at its positions. -/
theorem lt_length_iff_mem_of_nodup {α : Type} {front back : List α} {index : Nat} {x : α}
    (nodup : (front ++ back).Nodup) (found : (front ++ back)[index]? = some x) :
    index < front.length ↔ x ∈ front := by
  constructor
  · intro inside
    rw [List.getElem?_append_left inside] at found
    exact List.mem_of_getElem? found
  · intro member
    by_contra beyond
    rw [List.getElem?_append_right (Nat.le_of_not_lt beyond)] at found
    exact (List.nodup_append.mp nodup).2.2 x member x (List.mem_of_getElem? found) rfl

/-- The ordinary symbols of variables and bases come first. -/
theorem lt_variableCount_iff {index : Nat} (listed : grammar.numberedNames[index]? = some name) :
    index < (assemble grammar).variableCount ↔ name ∈ grammar.replaceableNames := by
  have count : (assemble grammar).variableCount = grammar.replaceableNames.length := by
    rw [← names_replaceableRegistry, Array.length_toList]
    rfl
  have nodup := nodup_numberedNames grammar
  rw [Grammar.numberedNames, Grammar.addNew, Grammar.addNew, List.append_assoc] at nodup listed
  rw [count, lt_length_iff_mem_of_nodup nodup listed]

/-- Among the names without a level, the variables and bases are those numbered first. -/
theorem mem_replaceableNames_iff (ordinary : ¬∃ base level, grammar.StandsFor name base level) :
    name ∈ grammar.replaceableNames ↔
      name ∈ grammar.variableNames ∨ name ∈ grammar.bases ∨
        ∃ base level, grammar.IsLevelName name base level := by
  have noLevel : ¬∃ base level, grammar.IsLevelName name base level := by
    intro ⟨base, level, isLevel⟩
    exact ordinary ⟨base, level, Or.inr isLevel⟩
  have unlevelled : name ∈ grammar.variableNames → name.counter? = none := by
    intro declared
    by_contra counter
    obtain ⟨family, counter⟩ := Option.ne_none_iff_exists'.mp counter
    exact ordinary ⟨family.1, family.2, Or.inl ⟨declared, counter⟩⟩
  rw [Grammar.replaceableNames, Grammar.mem_addNew, Grammar.mem_ordinaryVariables,
    Std.ExtTreeSet.mem_toList, and_iff_left_of_imp unlevelled, or_iff_left noLevel]

section

variable (fits : Fits grammar)
include fits

theorem isVariable_iff :
    (assemble grammar).isVariable name = true ↔
      name ∈ grammar.variableNames ∨ name ∈ grammar.bases ∨
        ∃ base level, grammar.IsLevelName name base level := by
  by_cases stands : ∃ base level, grammar.StandsFor name base level
  · obtain ⟨base, level, stands⟩ := stands
    simp only [isVariable, symbol?_of_standsFor fits stands, true_iff]
    rcases stands with ⟨declared, -⟩ | isLevel
    · exact Or.inl declared
    · exact Or.inr (Or.inr ⟨base, level, isLevel⟩)
  · rw [← mem_replaceableNames_iff stands]
    cases lookup : (assemble grammar).symbol? name with
    | none =>
      have unknown := (symbol?_eq_none_iff fits).mp lookup
      simp only [isVariable, lookup, Bool.false_eq_true, false_iff, mem_replaceableNames_iff stands]
      simp only [knows_iff, not_or] at unknown ⊢
      exact ⟨unknown.1, unknown.2.2.2⟩
    | some symbol =>
      obtain ⟨index, rfl, listed⟩ := exists_plain_of_not_standsFor fits stands lookup
      simp only [isVariable, lookup, decide_eq_true_eq]
      exact lt_variableCount_iff listed

end

/-- Constants are the known names that are not variables. -/
theorem isConstant_iff {alphabet : Alphabet} :
    alphabet.isConstant name = true ↔
      (∃ symbol, alphabet.symbol? name = some symbol) ∧ ¬alphabet.isVariable name = true := by
  unfold isConstant isVariable
  cases alphabet.symbol? name with
  | none => simp
  | some symbol => cases symbol <;> simp

/-! ### The classification -/

/-- The names with a symbol are the variables, the constants, the empty name, the bases of families
and the plain spellings of their levels, and no others.  A level is meant by the variables that
stand for it, however they are spelled, and by its plain spelling, which takes precedence over a
constant of this name; its symbol bears the index of the base.  All other names with a symbol are
ordinary.  Variables are then those that are declared as such, bases and levels; the rest are
constants. -/
theorem symbol?_classification {grammar : Grammar} {alphabet : Alphabet}
    (built : build grammar = .ok alphabet) :
    (∀ base ∈ grammar.bases, ∃ family, alphabet.symbol? base = some (.plain family)) ∧
    ∀ name,
      ((∃ symbol, alphabet.symbol? name = some symbol) ↔
        name ∈ grammar.variableNames ∨ name ∈ grammar.constantNames ∨ name = Name.empty ∨
          name ∈ grammar.bases ∨ ∃ base level, grammar.IsLevelName name base level) ∧
      (∀ family level, alphabet.symbol? name = some (.counter family level) ↔
        ∃ base, grammar.StandsFor name base level ∧
          alphabet.symbol? base = some (.plain family)) ∧
      ((∃ index, alphabet.symbol? name = some (.plain index)) ↔
        (∃ symbol, alphabet.symbol? name = some symbol) ∧
          ¬∃ base level, grammar.StandsFor name base level) ∧
      (alphabet.isVariable name = true ↔
        name ∈ grammar.variableNames ∨ name ∈ grammar.bases ∨
          ∃ base level, grammar.IsLevelName name base level) ∧
      (alphabet.isConstant name = true ↔
        (∃ symbol, alphabet.symbol? name = some symbol) ∧
          ¬alphabet.isVariable name = true) := by
  obtain ⟨fits, -, rfl⟩ := build_eq_ok_iff.mp built
  constructor
  · intro base family
    exact ⟨_, symbol?_of_mem_bases fits family⟩
  · intro name
    refine ⟨?known, fun _ _ => symbol?_eq_counter_iff fits, exists_symbol?_plain_iff fits,
      isVariable_iff fits, isConstant_iff⟩
    case known => rw [exists_symbol?_iff_knows fits, knows_iff]

/-- A name that is a variable and a constant, a level that is spelled with a zero in front, and
among the constants the empty name, a base, a level of its family and a name that only looks like
one. -/
def overlapping : Grammar :=
  ⟨.ofList (["A", "S3", "T01"].map Name.mk), .ofList (["A", "S2", "S9", "T", ""].map Name.mk), ∅⟩

theorem symbol?_classification_overlapping :
    ∃ alphabet, build overlapping = .ok alphabet ∧
      (∃ base, overlapping.StandsFor ⟨"S2"⟩ base 2 ∧ alphabet.symbol? base = some (.plain 1)) ∧
      (∃ base, overlapping.StandsFor ⟨"T01"⟩ base 1 ∧ alphabet.symbol? base = some (.plain 2)) ∧
      (¬∃ base level, overlapping.StandsFor ⟨"S9"⟩ base level) ∧
      alphabet.isConstant ⟨"S9"⟩ = true ∧ alphabet.isVariable ⟨"T"⟩ = true ∧
      ¬∃ base level, overlapping.IsLevelName ⟨"S03"⟩ base level := by
  have evaluated : (build overlapping).toOption.map (fun alphabet =>
      (["S2", "T01", "S9", "S03"].map fun text => alphabet.symbol? ⟨text⟩,
        alphabet.isVariable ⟨"S9"⟩)) =
      some ([some (.counter 1 2), some (.counter 2 1), some (.plain 5), none], false) := by
    decide +kernel
  obtain ⟨alphabet, built, read⟩ := exists_ok_of_toOption_map evaluated
  simp only [List.map_cons, List.map_nil, Prod.mk.injEq, List.cons.injEq, and_true] at read
  obtain ⟨⟨level, respelled, spelledAlike, unknown⟩, constant⟩ := read
  obtain ⟨-, names⟩ := symbol?_classification built
  obtain ⟨-, -, plain, -, isConstant⟩ := names ⟨"S9"⟩
  have isBase : (⟨"T"⟩ : Name) ∈ overlapping.bases :=
    Grammar.mem_bases.mpr ⟨⟨"T01"⟩, by decide +kernel, 1, by decide +kernel⟩
  refine ⟨alphabet, built, ((names _).2.1 1 2).mp level, ((names _).2.1 2 1).mp respelled,
    (plain.mp ⟨5, spelledAlike⟩).2, isConstant.mpr ⟨⟨_, spelledAlike⟩, by simp [constant]⟩,
    (names _).2.2.2.1.mpr (Or.inr (Or.inl isBase)), ?_⟩
  intro isLevel
  obtain ⟨symbol, known⟩ := (names _).1.mpr (Or.inr (Or.inr (Or.inr (Or.inr isLevel))))
  rw [unknown] at known
  cases known

end Alphabet

end Lindenmayer
