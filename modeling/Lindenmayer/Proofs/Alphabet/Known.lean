import Mathlib.Data.List.Dedup
import Lindenmayer.Proofs.Grammar.Tidy

/-!
# The names a grammar knows

Which names have a symbol in the alphabet of a grammar, and how many ordinary symbols they take,
read off the declarations alone.  A declared variable brings along the base of its family and all
levels below its own; the empty name is always there.
-/

namespace Lindenmayer

/-- The ordinary name that a name belongs to: the base of its family if it names a level, and
otherwise the name itself. -/
def Name.root (name : Name) : Name :=
  match name.counter? with
  | some (base, _) => base
  | none => name

theorem Name.root_of_counter? {name base : Name} {level : UInt8}
    (found : name.counter? = some (base, level)) : name.root = base := by
  simp [root, found]

theorem Name.root_of_counter?_eq_none {name : Name} (ordinary : name.counter? = none) :
    name.root = name := by
  simp [root, ordinary]

namespace Grammar

/-- The names that take up an ordinary symbol, each one once: variables and the bases of families,
constants, and the empty name. -/
def plainNames (grammar : Grammar) : List Name :=
  (grammar.variableNames.toList.map Name.root ++
    (grammar.constantNames.toList ++ [Name.empty])).dedup

/-- The names that have a symbol: the empty name, the declared ones, and with a declared level the
base of its family and the levels up to it, in plain decimal. -/
inductive Knows (grammar : Grammar) : Name → Prop
  | boundary : Knows grammar Name.empty
  | declared {name : Name} : grammar.Declares name → Knows grammar name
  | base {name base : Name} {highest : UInt8} : name ∈ grammar.variableNames →
    name.counter? = some (base, highest) → Knows grammar base
  | level {name base : Name} {level highest : UInt8} : name ∈ grammar.variableNames →
    name.counter? = some (base, highest) → 0 < level → level ≤ highest →
      Knows grammar (base.atLevel level)

theorem mem_plainNames {grammar : Grammar} {name : Name} :
    name ∈ grammar.plainNames ↔
      (∃ declared ∈ grammar.variableNames, declared.root = name) ∨
        name ∈ grammar.constantNames ∨ name = Name.empty := by
  simp [plainNames, Std.ExtTreeSet.mem_toList]

theorem nodup_plainNames (grammar : Grammar) : grammar.plainNames.Nodup := List.nodup_dedup _

end Grammar

namespace Alphabet

variable {grammar : Grammar}

/-- A family is there because its highest level is declared. -/
theorem exists_declared_of_highestLevel? {base : Name} {highest : UInt8}
    (family : highestLevel? grammar base = some highest) :
    ∃ name ∈ grammar.variableNames, name.counter? = some (base, highest) := by
  obtain ⟨name, member, counter⟩ :=
    (highestLevels_counterLevels grammar.variableNames).declared base highest family
  exact ⟨name, Std.ExtTreeSet.mem_toList.mp member, counter⟩

/-! ### Room -/

theorem mem_plainRegistry_iff {name : Name} :
    name ∈ (plainRegistry grammar).names ↔ name ∈ grammar.plainNames := by
  rw [mem_plainRegistry, Grammar.mem_plainNames]
  refine or_congr_left ?_
  constructor
  · rintro (⟨declared, ordinary⟩ | family)
    · exact ⟨name, declared, Name.root_of_counter?_eq_none ordinary⟩
    · obtain ⟨highest, lookup⟩ := mem_counterLevels_iff.mp family
      obtain ⟨level, declared, counter⟩ := exists_declared_of_highestLevel? lookup
      exact ⟨level, declared, Name.root_of_counter? counter⟩
  · intro ⟨other, declared, root⟩
    cases counter : other.counter? with
    | none =>
      rw [Name.root_of_counter?_eq_none counter] at root
      exact Or.inl (root ▸ ⟨declared, counter⟩)
    | some family =>
      obtain ⟨base, level⟩ := family
      rw [Name.root_of_counter? counter] at root
      obtain ⟨highest, lookup, -⟩ := highestLevel?_of_mem declared counter
      exact Or.inr (root ▸ mem_counterLevels_iff.mpr ⟨highest, lookup⟩)

/-- The registry holds each ordinary name once. -/
theorem size_plainRegistry (grammar : Grammar) :
    (plainRegistry grammar).names.size = grammar.plainNames.length := by
  have same : (plainRegistry grammar).names.toList.Perm grammar.plainNames := by
    rw [List.perm_ext_iff_of_nodup (indexed_plainRegistry grammar).nodup grammar.nodup_plainNames]
    intro name
    rw [Array.mem_toList_iff, mem_plainRegistry_iff]
  rw [← Array.length_toList, same.length_eq]

theorem fits_iff : Fits grammar ↔ grammar.plainNames.length ≤ maxPlainSymbols := by
  rw [Fits, size_plainRegistry]

/-! ### Names with a symbol -/

theorem exists_registered_symbol {name : Name} (registered : name ∈ (plainRegistry grammar).names) :
    ∃ symbol, (plainRegistry grammar).symbols[name]? = some symbol := by
  obtain ⟨index, found⟩ := Array.mem_iff_getElem?.mp registered
  exact ⟨_, ((indexed_plainRegistry grammar).lookup name _).mpr ⟨index, found, rfl⟩⟩

section

variable (fits : Fits grammar)
include fits

theorem exists_symbol?_of_declared {name : Name} (declared : name ∈ grammar.variableNames) :
    ∃ symbol, (assemble grammar).symbol? name = some symbol := by
  cases counter : name.counter? with
  | none =>
    rw [symbol?_ordinary fits counter]
    exact exists_registered_symbol (mem_plainRegistry.mpr (Or.inl (Or.inl ⟨declared, counter⟩)))
  | some family =>
    obtain ⟨base, level⟩ := family
    exact ⟨_, symbol?_declared fits declared counter⟩

/-- An ordinary name has a symbol, even a constant that is spelled like a level. -/
theorem exists_symbol?_of_registered {name : Name}
    (registered : name ∈ (plainRegistry grammar).names) :
    ∃ symbol, (assemble grammar).symbol? name = some symbol := by
  by_cases declared : name ∈ grammar.variableNames
  · exact exists_symbol?_of_declared fits declared
  · by_cases isLevel : ∃ base level, HasLevel grammar base level ∧ name = base.atLevel level
    · obtain ⟨base, level, allocated, rfl⟩ := isLevel
      exact ⟨_, symbol?_atLevel fits allocated⟩
    · rw [symbol?_registered fits declared isLevel]
      exact exists_registered_symbol registered

theorem exists_symbol?_of_knows {name : Name} (known : grammar.Knows name) :
    ∃ symbol, (assemble grammar).symbol? name = some symbol := by
  cases known with
  | boundary => exact ⟨_, symbol?_empty fits⟩
  | declared declares =>
    rcases declares with declared | constant
    · exact exists_symbol?_of_declared fits declared
    · exact exists_symbol?_of_registered fits (mem_plainRegistry.mpr (Or.inr (Or.inl constant)))
  | base declared counter =>
    obtain ⟨highest, family, -⟩ := highestLevel?_of_mem declared counter
    exact exists_symbol?_of_registered fits (mem_plainRegistry_of_highestLevel? family)
  | level declared counter positive below =>
    obtain ⟨highest, family, reached⟩ := highestLevel?_of_mem declared counter
    exact ⟨_, symbol?_atLevel fits ⟨highest, family, positive, UInt8.le_trans below reached⟩⟩

theorem knows_of_symbol? {name : Name} {symbol : Symbol}
    (lookup : (assemble grammar).symbol? name = some symbol) : grammar.Knows name := by
  by_cases declared : name ∈ grammar.variableNames
  · exact .declared (Or.inl declared)
  · by_cases isLevel : ∃ base level, HasLevel grammar base level ∧ name = base.atLevel level
    · obtain ⟨base, level, ⟨highest, family, positive, below⟩, rfl⟩ := isLevel
      obtain ⟨other, member, counter⟩ := exists_declared_of_highestLevel? family
      exact .level member counter positive below
    · rw [symbol?_registered fits declared isLevel] at lookup
      obtain ⟨index, found, -⟩ := ((indexed_plainRegistry grammar).lookup name symbol).mp lookup
      rcases mem_plainRegistry.mp (Array.mem_of_getElem? found) with
        (⟨variableName, -⟩ | family) | constant | rfl
      · exact absurd variableName declared
      · obtain ⟨highest, family⟩ := mem_counterLevels_iff.mp family
        obtain ⟨other, member, counter⟩ := exists_declared_of_highestLevel? family
        exact .base member counter
      · exact .declared (Or.inr constant)
      · exact .boundary

/-- The names with a symbol are those that the grammar knows. -/
theorem exists_symbol?_iff_knows {name : Name} :
    (∃ symbol, (assemble grammar).symbol? name = some symbol) ↔ grammar.Knows name := by
  constructor
  · intro ⟨symbol, lookup⟩
    exact knows_of_symbol? fits lookup
  · exact exists_symbol?_of_knows fits

theorem symbol?_eq_none_iff {name : Name} :
    (assemble grammar).symbol? name = none ↔ ¬grammar.Knows name := by
  rw [← exists_symbol?_iff_knows fits, ← Option.isSome_iff_exists, Bool.not_eq_true,
    Option.isSome_eq_false_iff, Option.isNone_iff_eq_none]

end

end Alphabet

end Lindenmayer
