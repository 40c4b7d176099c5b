import Lindenmayer.Proofs.Alphabet.Encoding
import Lindenmayer.Proofs.Alphabet.Known
import Lindenmayer.Proofs.Name.ByteOrder
import Mathlib.Data.Finset.Card

/-!
# The numbering of ordinary symbols

Ordinary symbols are numbered in the order in which their names are registered: variables, then the
bases of families, constants, and the empty name, each group in byte order and no name twice.  An
alphabet overflows exactly when these names are too many for indices of 16 bits; otherwise the index
of an ordinary symbol is the position of its name in the list.
-/

namespace Lindenmayer

/-! ### The list of ordinary names -/

namespace Grammar

/-- The variables that are not levels of a family. -/
def ordinaryVariables (grammar : Grammar) : List Name :=
  grammar.variableNames.toList.filter fun name => name.counter?.isNone

/-- The bases of the families that variables belong to. -/
def bases (grammar : Grammar) : NameSet :=
  .ofList (grammar.variableNames.toList.filterMap fun name => name.counter?.map Prod.fst)

/-- The names that take up an ordinary symbol. -/
def ordinaryNames (grammar : Grammar) : Finset Name :=
  grammar.ordinaryVariables.toFinset ∪ grammar.bases.toList.toFinset ∪
    grammar.constantNames.toList.toFinset ∪ {Name.empty}

/-- Names, followed by those of a second list that are not among them. -/
def addNew (names others : List Name) : List Name := names ++ others.filter (· ∉ names)

/-- The ordinary names of replaceable symbols in the order of their symbols. -/
def replaceableNames (grammar : Grammar) : List Name :=
  addNew grammar.ordinaryVariables grammar.bases.toList

/-- The ordinary names in the order of their symbols. -/
def numberedNames (grammar : Grammar) : List Name :=
  addNew (addNew grammar.replaceableNames grammar.constantNames.toList) [Name.empty]

variable {grammar : Grammar}

theorem mem_ordinaryVariables {name : Name} :
    name ∈ grammar.ordinaryVariables ↔ name ∈ grammar.variableNames ∧ name.counter? = none := by
  simp [ordinaryVariables, Std.ExtTreeSet.mem_toList]

theorem mem_bases {base : Name} :
    base ∈ grammar.bases ↔
      ∃ name ∈ grammar.variableNames, ∃ level, name.counter? = some (base, level) := by
  simp [bases, Std.ExtTreeSet.mem_ofList, Std.ExtTreeSet.mem_toList]

theorem mem_addNew {names others : List Name} {name : Name} :
    name ∈ addNew names others ↔ name ∈ names ∨ name ∈ others := by
  simp only [addNew, List.mem_append, List.mem_filter, decide_eq_true_eq]
  tauto

@[simp] theorem addNew_nil (names : List Name) : addNew names [] = names := by
  simp [addNew]

theorem addNew_cons_of_mem {names : List Name} {name : Name} (known : name ∈ names)
    (others : List Name) : addNew names (name :: others) = addNew names others := by
  simp [addNew, known]

theorem addNew_cons_of_not_mem {names others : List Name} {name : Name} (fresh : name ∉ names)
    (once : name ∉ others) : addNew names (name :: others) = addNew (names ++ [name]) others := by
  have unchanged : others.filter (· ∉ names ++ [name]) = others.filter (· ∉ names) := by
    apply List.filter_congr
    intro other member
    have apart : other ≠ name := fun equal => once (equal ▸ member)
    simp [apart]
  rw [addNew, addNew, unchanged]
  simp [fresh]

theorem toFinset_numberedNames (grammar : Grammar) :
    grammar.numberedNames.toFinset = grammar.ordinaryNames := by
  ext name
  simp only [numberedNames, replaceableNames, ordinaryNames, List.mem_toFinset, mem_addNew,
    List.mem_singleton, Finset.mem_union, Finset.mem_singleton]

end Grammar

namespace Alphabet

/-! ### Registering in order -/

/-- Registering distinct names adds the new ones behind those already there. -/
theorem Registry.names_registerAll {registry : Registry} (indexed : registry.Indexed)
    {names : List Name} (nodup : names.Nodup) :
    (registry.registerAll names).names.toList = Grammar.addNew registry.names.toList names := by
  induction names generalizing registry with
  | nil => simp [registerAll]
  | cons name names ih =>
    obtain ⟨once, rest⟩ := List.nodup_cons.mp nodup
    have step : registry.registerAll (name :: names) =
        (registry.register name).registerAll names := rfl
    rw [step, ih (indexed.register name) rest, names_register indexed name]
    split
    next known => rw [Grammar.addNew_cons_of_mem (Array.mem_toList_iff.mpr known)]
    next fresh =>
      rw [Array.toList_push,
        Grammar.addNew_cons_of_not_mem (mt Array.mem_toList_iff.mp fresh) once]

variable {grammar : Grammar}

theorem mem_counterLevels_iff_mem_bases {base : Name} :
    base ∈ counterLevels grammar.variableNames ↔ base ∈ grammar.bases := by
  rw [mem_counterLevels_iff, Grammar.mem_bases]
  constructor
  · intro ⟨highest, family⟩
    obtain ⟨name, declared, counter⟩ := exists_declared_of_highestLevel? family
    exact ⟨name, declared, highest, counter⟩
  · intro ⟨name, declared, level, counter⟩
    obtain ⟨highest, family, -⟩ := highestLevel?_of_mem declared counter
    exact ⟨highest, family⟩

/-- Families are laid out in the order of their bases. -/
theorem keys_counterLevels (grammar : Grammar) :
    (counterLevels grammar.variableNames).keys = grammar.bases.toList := by
  apply eq_of_pairwise_compare Std.ExtTreeMap.ordered_keys Std.ExtTreeSet.ordered_toList
  intro base
  rw [Std.ExtTreeMap.mem_keys, Std.ExtTreeSet.mem_toList, mem_counterLevels_iff_mem_bases]

theorem names_replaceableRegistry (grammar : Grammar) :
    (replaceableRegistry grammar).names.toList = grammar.replaceableNames := by
  have ordinary := Registry.names_registerAll Registry.indexed_empty
    ((nodup_toList grammar.variableNames).filter fun name => name.counter?.isNone)
  rw [replaceableRegistry, Registry.names_registerAll (Registry.indexed_empty.registerAll _)
    Std.ExtTreeMap.nodup_keys, keys_counterLevels, ordinary]
  simp [Grammar.addNew, Grammar.replaceableNames, Grammar.ordinaryVariables, Registry.empty]

theorem names_plainRegistry (grammar : Grammar) :
    (plainRegistry grammar).names.toList = grammar.numberedNames := by
  have indexed := indexed_replaceableRegistry grammar
  have constants := Registry.names_registerAll indexed (nodup_toList grammar.constantNames)
  have boundary := Registry.names_registerAll (indexed.registerAll grammar.constantNames.toList)
    (List.nodup_singleton Name.empty)
  rw [names_replaceableRegistry] at constants
  rw [constants] at boundary
  exact boundary

theorem nodup_numberedNames (grammar : Grammar) : grammar.numberedNames.Nodup := by
  rw [← names_plainRegistry]
  exact (indexed_plainRegistry grammar).nodup

theorem length_numberedNames (grammar : Grammar) :
    grammar.numberedNames.length = grammar.ordinaryNames.card := by
  rw [← Grammar.toFinset_numberedNames, List.toFinset_card_of_nodup (nodup_numberedNames grammar)]

theorem fits_iff_card : Fits grammar ↔ grammar.ordinaryNames.card ≤ maxPlainSymbols := by
  rw [← length_numberedNames, ← names_plainRegistry, Array.length_toList, Fits]

/-- An alphabet overflows by the number of its ordinary names alone. -/
theorem build_eq_overflow_iff_card :
    build grammar = .error .alphabetOverflow ↔ maxPlainSymbols < grammar.ordinaryNames.card := by
  rw [build_eq_overflow_iff, fits_iff_card, Nat.not_le]

/-! ### Room for slots -/

theorem size_counters_addFamily (plainCount : Nat) (layout : Layout) (base : Name)
    (highest : UInt8) :
    (layout.addFamily plainCount base highest).counters.size =
      layout.counters.size + highest.toNat := by
  simp [Layout.addFamily, Layout.foldl_addLevel, Layout.levelsUpTo]

theorem size_counters_foldl_le (plainCount : Nat) (families : List (Name × UInt8))
    (layout : Layout) :
    (families.foldl (fun layout (base, highest) => layout.addFamily plainCount base highest)
      layout).counters.size ≤ layout.counters.size + 255 * families.length := by
  induction families generalizing layout with
  | nil => exact Nat.le_add_right _ _
  | cons family families ih =>
    obtain ⟨base, highest⟩ := family
    have bound := highest.toNat_lt
    rw [List.foldl_cons, List.length_cons]
    calc
      _ ≤ (layout.addFamily plainCount base highest).counters.size + 255 * families.length := ih _
      _ ≤ layout.counters.size + 255 * (families.length + 1) := by
        rw [size_counters_addFamily]
        omega

/-- Each family takes up an ordinary symbol for its base. -/
theorem length_families_le (grammar : Grammar) :
    (counterLevels grammar.variableNames).toList.length ≤ (plainRegistry grammar).names.size := by
  have inside : (counterLevels grammar.variableNames).keys ⊆
      (plainRegistry grammar).names.toList := by
    intro base member
    rw [Array.mem_toList_iff]
    exact mem_plainRegistry.mpr (Or.inl (Or.inr (Std.ExtTreeMap.mem_keys.mp member)))
  have bound := (List.subperm_of_subset Std.ExtTreeMap.nodup_keys inside).length_le
  rwa [← Std.ExtTreeMap.map_fst_toList_eq_keys, List.length_map, Array.length_toList] at bound

theorem slotCount_lt (fits : Fits grammar) : (assemble grammar).slotCount < UInt32.size := by
  have room : (plainRegistry grammar).names.size ≤ 65536 := fits
  have families := length_families_le grammar
  have levels : (familyLayout grammar).counters.size ≤
      0 + 255 * (counterLevels grammar.variableNames).toList.length :=
    size_counters_foldl_le _ _ (Layout.start (plainRegistry grammar))
  have count : (assemble grammar).slotCount =
      (plainRegistry grammar).names.size + (familyLayout grammar).counters.size := rfl
  rw [UInt32.size]
  omega

/-- The block of a family starts at the slot of its first level. -/
theorem slot?_firstSlot (fits : Fits grammar) {index : UInt16} {family : Family}
    (found : (assemble grammar).family? index = some family) :
    (assemble grammar).slot? (.counter index 1) = some family.firstSlot := by
  have listed : (familyLayout grammar).families[index.toNat]? =
      some (some ⟨family.firstSlot, family.maxLevel⟩) := Option.join_eq_some_iff.mp found
  obtain ⟨base, member, -⟩ :=
    ((covers_familyLayout fits).family_iff index.toNat family.maxLevel).mp ⟨_, listed⟩
  obtain ⟨name, -, counter⟩ :=
    exists_declared_of_highestLevel? (mem_toList_counterLevels.mp member)
  have positive := Name.level_pos_of_counter? counter
  have allocated : ¬family.maxLevel < 1 := by
    rw [UInt8.lt_iff_toNat_lt, UInt8.toNat_zero] at positive
    rw [UInt8.lt_iff_toNat_lt, UInt8.toNat_one]
    omega
  simp [slot?, found, allocated]

/-! ### The numbering -/

/-- The ordinary symbols of the alphabet are numbered by a list of names, without loss in 16 bits
for their indices and in 32 bits for slots. -/
structure NumberedBy (alphabet : Alphabet) (names : List Name) : Prop where
  names_eq : alphabet.names.toList = names
  nodup : names.Nodup
  toNat_index : ∀ index < names.length, index ≤ 65535 ∧ index.toUInt16.toNat = index
  /-- An index goes by the name at its position, and by no name past the end of the list. -/
  name?_plain : ∀ index : UInt16, alphabet.name? (.plain index) = names[index.toNat]?
  /-- A name that means an ordinary symbol is found at its index. -/
  symbol?_plain : ∀ name index, alphabet.symbol? name = some (.plain index) →
    names[index.toNat]? = some name
  /-- A name that is not spelled like a level means the symbol of its position. -/
  symbol?_ordinary : ∀ (index : Nat) (name : Name), names[index]? = some name →
    name.counter? = none → alphabet.symbol? name = some (.plain index.toUInt16)
  boundary : ∃ index, alphabet.boundary = .plain index ∧ names[index.toNat]? = some Name.empty
  firstSlot_lt : ∀ index family, alphabet.family? index = some family →
    family.firstSlot < alphabet.slotCount
  slotCount_lt : alphabet.slotCount < UInt32.size

/-- No two names mean the same ordinary symbol. -/
theorem NumberedBy.eq_of_symbol?_plain {alphabet : Alphabet} {names : List Name}
    (numbered : alphabet.NumberedBy names) {name other : Name} {index : UInt16}
    (lookup : alphabet.symbol? name = some (.plain index))
    (lookup' : alphabet.symbol? other = some (.plain index)) : name = other := by
  have found := numbered.symbol?_plain name index lookup
  rw [numbered.symbol?_plain other index lookup'] at found
  exact (Option.some.inj found).symm

theorem getElem?_names_plainRegistry (grammar : Grammar) (index : Nat) :
    (plainRegistry grammar).names[index]? = grammar.numberedNames[index]? := by
  rw [← names_plainRegistry, Array.getElem?_toList]

section

variable (fits : Fits grammar)
include fits

theorem toNat_index {index : Nat} (inside : index < grammar.numberedNames.length) :
    index ≤ 65535 ∧ index.toUInt16.toNat = index := by
  have room : (plainRegistry grammar).names.size ≤ 65536 := fits
  rw [← names_plainRegistry, Array.length_toList] at inside
  simp only [Nat.toUInt16_eq, UInt16.toNat_ofNat']
  omega

/-- An ordinary symbol bears the position of its name. -/
theorem getElem?_numberedNames_of_symbol? {name : Name} {index : UInt16}
    (lookup : (assemble grammar).symbol? name = some (.plain index)) :
    grammar.numberedNames[index.toNat]? = some name := by
  rcases symbol?_cases fits lookup with ⟨base, level, -, -, equal⟩ | ⟨position, found, equal⟩
  · cases equal
  · rw [getElem?_names_plainRegistry] at found
    have inside := (List.getElem?_eq_some_iff.mp found).1
    rw [Symbol.plain.inj equal, (toNat_index fits inside).2, found]

theorem symbol?_of_getElem?_numberedNames {index : Nat} {name : Name}
    (listed : grammar.numberedNames[index]? = some name) (ordinary : name.counter? = none) :
    (assemble grammar).symbol? name = some (.plain index.toUInt16) := by
  rw [← getElem?_names_plainRegistry] at listed
  rw [symbol?_ordinary fits ordinary]
  exact ((indexed_plainRegistry grammar).lookup name _).mpr ⟨index, listed, rfl⟩

theorem boundary_eq_plain : ∃ index, (assemble grammar).boundary = .plain index ∧
    grammar.numberedNames[index.toNat]? = some Name.empty := by
  have member : Name.empty ∈ grammar.numberedNames := by
    simp [Grammar.numberedNames, Grammar.mem_addNew]
  obtain ⟨index, found⟩ := List.mem_iff_getElem?.mp member
  have lookup := symbol?_of_getElem?_numberedNames fits found Name.counter?_empty
  refine ⟨_, ?_, getElem?_numberedNames_of_symbol? fits lookup⟩
  rwa [symbol?_empty fits, Option.some.injEq] at lookup

theorem numberedBy_numberedNames : (assemble grammar).NumberedBy grammar.numberedNames where
  names_eq := names_plainRegistry grammar
  nodup := nodup_numberedNames grammar
  toNat_index _ := toNat_index fits
  name?_plain index := getElem?_names_plainRegistry grammar index.toNat
  symbol?_plain _ _ := getElem?_numberedNames_of_symbol? fits
  symbol?_ordinary _ _ := symbol?_of_getElem?_numberedNames fits
  boundary := boundary_eq_plain fits
  firstSlot_lt _ _ found := slot?_lt_slotCount fits (slot?_firstSlot fits found)
  slotCount_lt := slotCount_lt fits

end

/-- The alphabet of a grammar overflows exactly when there are more than 65536 ordinary names: the
variables that are not levels, the bases of families, the constants, and the empty name, each one
counted once.  Rules have no say in this.  Otherwise the ordinary names are numbered from 0 in this
order, group by group, each group in byte order and without the names of the groups before. -/
theorem overflow_or_numbered (grammar : Grammar) :
    (build grammar = .error .alphabetOverflow ↔ 65536 < grammar.ordinaryNames.card) ∧
    (∀ rules, build { grammar with rules := rules } = .error .alphabetOverflow ↔
      build grammar = .error .alphabetOverflow) ∧
    (grammar.ordinaryNames.card ≤ 65536 →
      (∃ alphabet, build { grammar with rules := ∅ } = .ok alphabet) ∧
      ((∃ alphabet, build grammar = .ok alphabet) ∨
        ∃ predecessor name, build grammar = .error (.undeclaredSymbol predecessor name))) ∧
    (∀ alphabet, build grammar = .ok alphabet →
      alphabet.NumberedBy grammar.numberedNames ∧
      ∀ name other index, alphabet.symbol? name = some (.plain index) →
        alphabet.symbol? other = some (.plain index) → name = other) ∧
    grammar.ordinaryVariables.Pairwise (fun a b => a.bytes < b.bytes) ∧
    grammar.bases.toList.Pairwise (fun a b => a.bytes < b.bytes) ∧
    grammar.constantNames.toList.Pairwise (fun a b => a.bytes < b.bytes) := by
  refine ⟨build_eq_overflow_iff_card, ?rules, ?room, ?numbered,
    (pairwise_bytes_toList grammar.variableNames).filter _, pairwise_bytes_toList _,
    pairwise_bytes_toList _⟩
  case rules =>
    intro rules
    rw [build_eq_overflow_iff_card, build_eq_overflow_iff_card]
    exact Iff.rfl
  case room =>
    intro room
    have fits := fits_iff_card.mpr room
    refine ⟨⟨_, build_eq_ok_iff.mpr ⟨fits, ?_, rfl⟩⟩, ?_⟩
    · simp
    · exact (build_of_fits fits).imp_left fun built => ⟨_, built⟩
  case numbered =>
    intro alphabet built
    obtain ⟨fits, -, rfl⟩ := build_eq_ok_iff.mp built
    have numbers := numberedBy_numberedNames fits
    exact ⟨numbers, fun _ _ _ => numbers.eq_of_symbol?_plain⟩

/-- Constants spelled by nothing but `x`, from the empty name on. -/
def crowded (count : Nat) : Grammar :=
  ⟨∅, .ofList ((List.range count).map fun length => Name.ofChars (List.replicate length 'x')), ∅⟩

theorem card_ordinaryNames_crowded {count : Nat} (positive : 0 < count) :
    (crowded count).ordinaryNames.card = count := by
  have distinct : Function.Injective fun length => Name.ofChars (List.replicate length 'x') := by
    intro length length' equal
    simpa using congrArg (List.length ∘ Name.chars) equal
  have listed : (crowded count).ordinaryNames =
      ((List.range count).map fun length =>
        Name.ofChars (List.replicate length 'x')).toFinset := by
    ext name
    -- The empty name is the first of the constants.
    have boundary : name = Name.empty → ∃ length < count,
        Name.ofChars (List.replicate length 'x') = name := by
      rintro rfl
      exact ⟨0, positive, rfl⟩
    simpa [crowded, Grammar.ordinaryNames, Grammar.mem_ordinaryVariables, Grammar.mem_bases,
      Std.ExtTreeSet.mem_toList, Std.ExtTreeSet.mem_ofList] using boundary
  rw [listed, List.toFinset_card_of_nodup (List.nodup_range.map distinct), List.length_map,
    List.length_range]

/-- A base that is declared as a variable and as a constant, one that is not declared, a constant
that is spelled like a level, and the empty name among the variables. -/
def interleaved : Grammar :=
  ⟨.ofList (["S3", "", "T01", "S"].map Name.mk), .ofList (["[", "S", "T2"].map Name.mk), ∅⟩

theorem overflow_or_numbered_crowded :
    build (crowded 65537) = .error .alphabetOverflow ∧
    (∃ alphabet, build (crowded 65536) = .ok alphabet ∧ alphabet.names.size = 65536 ∧
      ∃ name, alphabet.name? (.plain 65535) = some name) ∧
    ∃ alphabet, build interleaved = .ok alphabet ∧
      alphabet.names.toList = ["", "S", "T", "T2", "["].map Name.mk ∧
      alphabet.symbol? ⟨"T"⟩ = some (.plain 2) ∧ alphabet.boundary = .plain 0 := by
  refine ⟨?overflow, ?boundary, ?order⟩
  case overflow =>
    rw [(overflow_or_numbered (crowded 65537)).1, card_ordinaryNames_crowded (by omega)]
    omega
  case boundary =>
    have card : (crowded 65536).ordinaryNames.card = 65536 :=
      card_ordinaryNames_crowded (by omega)
    obtain ⟨-, -, room, numbered, -⟩ := overflow_or_numbered (crowded 65536)
    obtain ⟨alphabet, built⟩ := (room (Nat.le_of_eq card)).1
    obtain ⟨numbers, -⟩ := numbered alphabet built
    have length : (crowded 65536).numberedNames.length = 65536 := by
      rw [length_numberedNames, card]
    refine ⟨alphabet, built, ?_, ?_⟩
    · rw [← Array.length_toList, numbers.names_eq, length]
    · rw [numbers.name?_plain]
      exact ⟨_, List.getElem?_eq_getElem (by rw [length]; decide)⟩
  case order =>
    have listed : interleaved.numberedNames = ["", "S", "T", "T2", "["].map Name.mk := by
      decide +kernel
    have evaluated : (build interleaved).toOption.map Alphabet.boundary = some (.plain 0) := by
      decide +kernel
    obtain ⟨alphabet, built, boundary⟩ := exists_ok_of_toOption_map evaluated
    obtain ⟨-, -, -, numbered, -⟩ := overflow_or_numbered interleaved
    obtain ⟨numbers, -⟩ := numbered alphabet built
    rw [listed] at numbers
    exact ⟨alphabet, built, numbers.names_eq,
      numbers.symbol?_ordinary 2 _ rfl (by decide +kernel), boundary⟩

end Alphabet

end Lindenmayer
