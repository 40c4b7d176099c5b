import Lindenmayer.Alphabet
import Lindenmayer.Proofs.Name.Families
import Mathlib.Data.List.Induction

/-!
# Registries and counter levels

The first two stages of building an alphabet.  The levels of a family reach up to the highest one
that is declared.  A registry gives distinct names consecutive ordinary symbols, in the order in
which it first meets them, and never moves a name that it knows.
-/

namespace Lindenmayer.Alphabet

/-! ### Highest levels -/

/-- Takes one more name into account: the level it names, if any, may be the highest so far. -/
def raiseLevel (levels : NameMap UInt8) (name : Name) : NameMap UInt8 :=
  match name.counter? with
  | some (base, level) => levels.insert base (max level (levels[base]?.getD level))
  | none => levels

theorem counterLevels_eq (names : NameSet) :
    counterLevels names = names.toList.foldl raiseLevel ∅ := rfl

/-- The table holds the highest level of every family that the names mention, and of no other. -/
structure HighestLevels (names : List Name) (levels : NameMap UInt8) : Prop where
  covers : ∀ name ∈ names, ∀ base level, name.counter? = some (base, level) →
    ∃ highest, levels[base]? = some highest ∧ level ≤ highest
  declared : ∀ base highest, levels[base]? = some highest →
    ∃ name ∈ names, name.counter? = some (base, highest)

theorem le_max_level (level other : UInt8) : level ≤ max level other ∧ other ≤ max level other := by
  rw [UInt8.max_def]
  split
  · exact ⟨by assumption, UInt8.le_refl other⟩
  · exact ⟨UInt8.le_refl level, by rw [UInt8.le_iff_toNat_le] at *; omega⟩

theorem getElem?_raiseLevel (levels : NameMap UInt8) {name raised : Name} {level : UInt8}
    (found : name.counter? = some (raised, level)) (base : Name) :
    (raiseLevel levels name)[base]? =
      if raised = base then some (max level (levels[raised]?.getD level)) else levels[base]? := by
  simp [raiseLevel, found, Std.ExtTreeMap.getElem?_insert]

namespace HighestLevels

variable {names : List Name} {levels : NameMap UInt8} (holds : HighestLevels names levels)
  {name : Name}
include holds

/-- A name that is not a level raises nothing. -/
theorem append_ordinary (ordinary : name.counter? = none) :
    HighestLevels (names ++ [name]) levels where
  covers := by
    intro other member base level counter
    rcases List.mem_append.mp member with old | new
    · exact holds.covers other old base level counter
    · obtain rfl := List.mem_singleton.mp new
      rw [ordinary] at counter
      cases counter
  declared := by
    intro base highest lookup
    obtain ⟨other, member, counter⟩ := holds.declared base highest lookup
    exact ⟨other, List.mem_append_left _ member, counter⟩

variable {raised : Name} {level : UInt8} (found : name.counter? = some (raised, level))
include found

theorem covers_raiseLevel {other base : Name} {lower : UInt8} (member : other ∈ names ++ [name])
    (counter : other.counter? = some (base, lower)) :
    ∃ highest, (Alphabet.raiseLevel levels name)[base]? = some highest ∧ lower ≤ highest := by
  rw [getElem?_raiseLevel levels found]
  rcases List.mem_append.mp member with old | new
  · obtain ⟨highest, lookup, below⟩ := holds.covers other old base lower counter
    split
    next same =>
      rw [same, lookup, Option.getD_some]
      exact ⟨_, rfl, UInt8.le_trans below (le_max_level level highest).2⟩
    next => exact ⟨highest, lookup, below⟩
  · obtain rfl := List.mem_singleton.mp new
    rw [found] at counter
    obtain ⟨rfl, rfl⟩ : raised = base ∧ level = lower := by simpa using counter
    rw [if_pos rfl]
    exact ⟨_, rfl, (le_max_level level _).1⟩

/-- The maximum of two declared levels is one of them, hence declared. -/
theorem declared_raiseLevel {base : Name} {highest : UInt8}
    (lookup : (Alphabet.raiseLevel levels name)[base]? = some highest) :
    ∃ other ∈ names ++ [name], other.counter? = some (base, highest) := by
  have kept : levels[base]? = some highest →
      ∃ other ∈ names ++ [name], other.counter? = some (base, highest) := by
    intro before
    obtain ⟨other, member, counter⟩ := holds.declared base highest before
    exact ⟨other, List.mem_append_left _ member, counter⟩
  rw [getElem?_raiseLevel levels found] at lookup
  by_cases same : raised = base
  · subst same
    rw [if_pos rfl, Option.some.injEq] at lookup
    have here : level = highest → ∃ other ∈ names ++ [name],
        other.counter? = some (raised, highest) := by
      intro equal
      rw [← equal]
      exact ⟨name, List.mem_append_right _ List.mem_cons_self, found⟩
    cases before : levels[raised]? with
    | none =>
      rw [before, Option.getD_none, UInt8.max_def, if_pos (UInt8.le_refl level)] at lookup
      exact here lookup
    | some old =>
      rw [before, Option.getD_some, UInt8.max_def] at lookup
      split at lookup
      · rw [lookup] at before
        exact kept before
      · exact here lookup
  · rw [if_neg same] at lookup
    exact kept lookup

end HighestLevels

theorem HighestLevels.raiseLevel {names : List Name} {levels : NameMap UInt8}
    (holds : HighestLevels names levels) (name : Name) :
    HighestLevels (names ++ [name]) (raiseLevel levels name) := by
  cases found : name.counter? with
  | none =>
    have unchanged : Alphabet.raiseLevel levels name = levels := by
      simp [Alphabet.raiseLevel, found]
    rw [unchanged]
    exact holds.append_ordinary found
  | some family =>
    obtain ⟨raised, level⟩ := family
    exact ⟨fun _ member _ _ counter => holds.covers_raiseLevel found member counter,
      fun _ _ lookup => holds.declared_raiseLevel found lookup⟩

theorem highestLevels_counterLevels (names : NameSet) :
    HighestLevels names.toList (counterLevels names) := by
  rw [counterLevels_eq]
  induction names.toList using List.reverseRecOn with
  | nil => exact ⟨by simp, by simp⟩
  | append_singleton names name ih =>
    rw [List.foldl_append]
    exact ih.raiseLevel name

/-! ### Registries -/

namespace Registry

/-- The names are distinct, and each known name means the ordinary symbol of its position. -/
structure Indexed (registry : Registry) : Prop where
  nodup : registry.names.toList.Nodup
  lookup : ∀ name symbol, registry.symbols[name]? = some symbol ↔
    ∃ index : Nat, registry.names[index]? = some name ∧ symbol = Symbol.plain index.toUInt16

theorem indexed_empty : Registry.empty.Indexed :=
  ⟨by simp [Registry.empty], by simp [Registry.empty]⟩

theorem Indexed.contains_iff {registry : Registry} (indexed : registry.Indexed) (name : Name) :
    registry.symbols.contains name = true ↔ name ∈ registry.names := by
  rw [Std.ExtTreeMap.contains_eq_isSome_getElem?, Option.isSome_iff_exists,
    Array.mem_iff_getElem?]
  simp only [indexed.lookup]
  constructor
  · intro given
    obtain ⟨symbol, index, found, -⟩ := given
    exact ⟨index, found⟩
  · intro ⟨index, found⟩
    exact ⟨_, index, found, rfl⟩

theorem names_register {registry : Registry} (indexed : registry.Indexed) (name : Name) :
    (registry.register name).names =
      if name ∈ registry.names then registry.names else registry.names.push name := by
  unfold register
  split
  · rename_i known
    rw [if_pos ((indexed.contains_iff name).mp known)]
  · rename_i fresh
    rw [if_neg fun member => fresh ((indexed.contains_iff name).mpr member)]

/-- A new name gets the next ordinary symbol. -/
theorem Indexed.push {registry : Registry} (indexed : registry.Indexed) {name : Name}
    (fresh : name ∉ registry.names) :
    Indexed ⟨registry.names.push name,
      registry.symbols.insert name (.plain registry.names.size.toUInt16)⟩ where
  nodup := by
    rw [Array.toList_push, List.nodup_append]
    refine ⟨indexed.nodup, by simp, ?_⟩
    intro old member new single equal
    rw [List.mem_singleton.mp single] at equal
    exact fresh (equal ▸ Array.mem_toList_iff.mp member)
  lookup := by
    intro other symbol
    rw [Std.ExtTreeMap.getElem?_insert]
    simp only [Std.compare_eq_iff_eq, Array.getElem?_push]
    by_cases same : name = other
    · subst same
      rw [if_pos rfl]
      constructor
      · intro equal
        exact ⟨registry.names.size, by simp, (Option.some.inj equal).symm⟩
      · rintro ⟨index, found, means⟩
        split at found
        next last => rw [means, last]
        next => exact absurd (Array.mem_of_getElem? found) fresh
    · rw [if_neg same, indexed.lookup]
      constructor
      · rintro ⟨index, found, means⟩
        have inside := (Array.getElem?_eq_some_iff.mp found).1
        exact ⟨index, by rw [if_neg (Nat.ne_of_lt inside), found], means⟩
      · rintro ⟨index, found, means⟩
        split at found
        · exact absurd (Option.some.inj found) same
        · exact ⟨index, found, means⟩

/-- Registering one more name keeps the names distinct and their symbols right. -/
theorem Indexed.register {registry : Registry} (indexed : registry.Indexed) (name : Name) :
    (registry.register name).Indexed := by
  by_cases known : name ∈ registry.names
  · rw [register_of_known ((indexed.contains_iff name).mpr known)]
    exact indexed
  · have fresh : ¬registry.symbols.contains name = true := by rwa [indexed.contains_iff]
    simp only [Registry.register, if_neg fresh]
    exact indexed.push known

theorem Indexed.registerAll {registry : Registry} (indexed : registry.Indexed)
    (names : List Name) : (registry.registerAll names).Indexed := by
  induction names generalizing registry with
  | nil => exact indexed
  | cons name names ih => exact ih (indexed.register name)

/-- A registry knows what it knew before and what was registered. -/
theorem mem_names_registerAll {registry : Registry} (indexed : registry.Indexed)
    (names : List Name) (name : Name) :
    name ∈ (registry.registerAll names).names ↔ name ∈ registry.names ∨ name ∈ names := by
  induction names generalizing registry with
  | nil => simp [registerAll]
  | cons first names ih =>
    have step : registry.registerAll (first :: names) =
        (registry.register first).registerAll names := rfl
    rw [step, ih (indexed.register first), names_register indexed first, List.mem_cons]
    split
    next known =>
      constructor
      · intro held
        rcases held with old | new
        · exact Or.inl old
        · exact Or.inr (Or.inr new)
      · intro held
        rcases held with old | rfl | new
        · exact Or.inl old
        · exact Or.inl known
        · exact Or.inr new
    · rw [Array.mem_push]
      tauto

/-- A registry that does not overflow gives a known name the symbol of its position. -/
theorem Indexed.getElem?_familyIndex {registry : Registry} (indexed : registry.Indexed)
    (small : registry.names.size ≤ maxPlainSymbols) {name : Name} (known : name ∈ registry.names) :
    registry.names[(familyIndex registry.symbols name).toNat]? = some name := by
  obtain ⟨index, found⟩ := Array.mem_iff_getElem?.mp known
  have lookup := (indexed.lookup name (.plain index.toUInt16)).mpr ⟨index, found, rfl⟩
  have bound : index < registry.names.size := (Array.getElem?_eq_some_iff.mp found).1
  have position : (familyIndex registry.symbols name).toNat = index := by
    simp only [familyIndex, lookup, Option.getD_some, Symbol.family, Nat.toUInt16_eq,
      UInt16.toNat_ofNat']
    simp only [maxPlainSymbols] at small
    omega
  rw [position, found]

end Registry

end Lindenmayer.Alphabet
