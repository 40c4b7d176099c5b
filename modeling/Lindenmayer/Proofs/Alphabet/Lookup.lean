import Lindenmayer.Proofs.Alphabet.Layout

/-!
# Names, symbols and slots

What a built alphabet knows: which symbol each name means, how each symbol is spelled, and that
different symbols have different slots.  The results hold for the names of any grammar, declared or
filled in by hand, as long as the ordinary symbols do not overflow.
-/

namespace Lindenmayer.Alphabet

/-! ### The stages of building -/

/-- The registry of the replaceable ordinary names: variables, then the bases of families. -/
def replaceableRegistry (grammar : Grammar) : Registry :=
  (Registry.empty.registerAll
      (grammar.variableNames.toList.filter fun name => name.counter?.isNone)).registerAll
    (counterLevels grammar.variableNames).keys

/-- The registry of all ordinary names. -/
def plainRegistry (grammar : Grammar) : Registry :=
  ((replaceableRegistry grammar).registerAll grammar.constantNames.toList).register Name.empty

/-- The layout of all families of a grammar. -/
def familyLayout (grammar : Grammar) : Layout :=
  (counterLevels grammar.variableNames).toList.foldl
    (fun layout (base, highest) =>
      layout.addFamily (plainRegistry grammar).names.size base highest)
    (Layout.start (plainRegistry grammar))

/-- The alphabet of a grammar, with no regard to overflow or undeclared names. -/
def assemble (grammar : Grammar) : Alphabet where
  names := (plainRegistry grammar).names
  variableCount := (replaceableRegistry grammar).names.size
  families := (familyLayout grammar).families
  counters := (familyLayout grammar).counters
  symbols := grammar.variableNames.toList.foldl respell (familyLayout grammar).symbols
  boundary := (plainRegistry grammar).symbols[Name.empty]?.getD (.plain 0)

/-- The ordinary names of a grammar fit into an alphabet. -/
def Fits (grammar : Grammar) : Prop := (plainRegistry grammar).names.size ≤ maxPlainSymbols

theorem build_eq (grammar : Grammar) :
    build grammar =
      if maxPlainSymbols < (plainRegistry grammar).names.size then
        .error .alphabetOverflow
      else
        match undeclared? (assemble grammar).symbols (grammar.rules.toList.map Prod.snd) with
        | some error => .error error
        | none => .ok (assemble grammar) := rfl

theorem undeclared?_eq_none_iff {symbols : NameMap Symbol} {rules : List Rule} :
    undeclared? symbols rules = none ↔
      ∀ rule ∈ rules, ∀ name ∈ rule.references, symbols.contains name = true := by
  simp [undeclared?, List.findSome?_eq_none_iff]

/-- What it takes for an alphabet to be built, and which one it is. -/
theorem build_eq_ok_iff {grammar : Grammar} {alphabet : Alphabet} :
    build grammar = .ok alphabet ↔
      Fits grammar ∧ (∀ rule ∈ grammar.rules.toList.map Prod.snd, ∀ name ∈ rule.references,
        ((assemble grammar).symbol? name).isSome) ∧ assemble grammar = alphabet := by
  have known : ∀ name, ((assemble grammar).symbol? name).isSome =
      (assemble grammar).symbols.contains name := fun name =>
    Std.ExtTreeMap.contains_eq_isSome_getElem?.symm
  simp only [build_eq, known, ← undeclared?_eq_none_iff, Fits]
  split
  · rename_i overflow
    simp only [reduceCtorEq, false_iff, not_and]
    intro fits
    omega
  · rename_i small
    cases undeclared? (assemble grammar).symbols (grammar.rules.toList.map Prod.snd) with
    | some error => simp
    | none => simp [Nat.le_of_not_lt small]

theorem undeclared?_eq_some {symbols : NameMap Symbol} {rules : List Rule} {error : Error}
    (found : undeclared? symbols rules = some error) :
    ∃ predecessor name, error = .undeclaredSymbol predecessor name := by
  obtain ⟨rule, -, inner⟩ := List.exists_of_findSome?_eq_some found
  obtain ⟨name, -, reported⟩ := Option.map_eq_some_iff.mp inner
  exact ⟨rule.predecessor, name, reported.symm⟩

/-- With room for all ordinary names, the only failure left is an undeclared name in a rule. -/
theorem build_of_fits {grammar : Grammar} (fits : Fits grammar) :
    build grammar = .ok (assemble grammar) ∨
      ∃ predecessor name, build grammar = .error (.undeclaredSymbol predecessor name) := by
  rw [build_eq, if_neg (Nat.not_lt.mpr fits)]
  cases found : undeclared? (assemble grammar).symbols (grammar.rules.toList.map Prod.snd) with
  | none => exact Or.inl rfl
  | some error =>
    obtain ⟨predecessor, name, rfl⟩ := undeclared?_eq_some found
    exact Or.inr ⟨predecessor, name, rfl⟩

theorem build_eq_overflow_iff {grammar : Grammar} :
    build grammar = .error .alphabetOverflow ↔ ¬Fits grammar := by
  constructor
  · intro overflow fits
    rcases build_of_fits fits with built | ⟨predecessor, name, failed⟩
    · rw [built] at overflow
      cases overflow
    · rw [failed] at overflow
      cases overflow
  · intro full
    rw [build_eq, if_pos (Nat.lt_of_not_le full)]

/-! ### Ordinary names -/

theorem indexed_replaceableRegistry (grammar : Grammar) :
    (replaceableRegistry grammar).Indexed :=
  (Registry.indexed_empty.registerAll _).registerAll _

theorem indexed_plainRegistry (grammar : Grammar) : (plainRegistry grammar).Indexed :=
  ((indexed_replaceableRegistry grammar).registerAll _).register _

theorem mem_replaceableRegistry {grammar : Grammar} {name : Name} :
    name ∈ (replaceableRegistry grammar).names ↔
      (name ∈ grammar.variableNames ∧ name.counter? = none) ∨
        name ∈ counterLevels grammar.variableNames := by
  rw [replaceableRegistry,
    Registry.mem_names_registerAll (Registry.indexed_empty.registerAll _),
    Registry.mem_names_registerAll Registry.indexed_empty]
  simp [Registry.empty, Std.ExtTreeMap.mem_keys, Std.ExtTreeSet.mem_toList]

/-- The ordinary names: variables that are not levels of a family, the bases of families,
constants, and the empty name. -/
theorem mem_plainRegistry {grammar : Grammar} {name : Name} :
    name ∈ (plainRegistry grammar).names ↔
      ((name ∈ grammar.variableNames ∧ name.counter? = none) ∨
        name ∈ counterLevels grammar.variableNames) ∨
          name ∈ grammar.constantNames ∨ name = Name.empty := by
  have register : plainRegistry grammar =
      ((replaceableRegistry grammar).registerAll grammar.constantNames.toList).registerAll
        [Name.empty] := rfl
  have indexed := indexed_replaceableRegistry grammar
  rw [register, Registry.mem_names_registerAll (indexed.registerAll _),
    Registry.mem_names_registerAll indexed, mem_replaceableRegistry]
  simp only [Std.ExtTreeSet.mem_toList, List.mem_singleton, or_assoc]

/-! ### Families -/

/-- The highest declared level of the family with a given base. -/
def highestLevel? (grammar : Grammar) (base : Name) : Option UInt8 :=
  (counterLevels grammar.variableNames)[base]?

/-- The index of the ordinary symbol of a base. -/
def baseIndex (grammar : Grammar) (base : Name) : UInt16 :=
  familyIndex (plainRegistry grammar).symbols base

/-- The family with the given base has the given level. -/
def HasLevel (grammar : Grammar) (base : Name) (level : UInt8) : Prop :=
  ∃ highest, highestLevel? grammar base = some highest ∧ 0 < level ∧ level ≤ highest

theorem mem_toList_counterLevels {grammar : Grammar} {base : Name} {highest : UInt8} :
    (base, highest) ∈ (counterLevels grammar.variableNames).toList ↔
      highestLevel? grammar base = some highest :=
  Std.ExtTreeMap.mem_toList_iff_getElem?_eq_some

theorem mem_counterLevels_iff {grammar : Grammar} {base : Name} :
    base ∈ counterLevels grammar.variableNames ↔
      ∃ highest, highestLevel? grammar base = some highest := by
  rw [Std.ExtTreeMap.mem_iff_isSome_getElem?, Option.isSome_iff_exists]
  rfl

/-- Declaring a level allocates the levels up to it. -/
theorem highestLevel?_of_mem {grammar : Grammar} {name base : Name} {level : UInt8}
    (declared : name ∈ grammar.variableNames) (counter : name.counter? = some (base, level)) :
    ∃ highest, highestLevel? grammar base = some highest ∧ level ≤ highest :=
  (highestLevels_counterLevels grammar.variableNames).covers name
    (Std.ExtTreeSet.mem_toList.mpr declared) base level counter

theorem isBase_of_highestLevel? {grammar : Grammar} {base : Name} {highest : UInt8}
    (family : highestLevel? grammar base = some highest) : base.IsBase := by
  obtain ⟨name, -, counter⟩ :=
    (highestLevels_counterLevels grammar.variableNames).declared base highest family
  exact Name.isBase_of_counter? counter

theorem mem_plainRegistry_of_highestLevel? {grammar : Grammar} {base : Name} {highest : UInt8}
    (family : highestLevel? grammar base = some highest) :
    base ∈ (plainRegistry grammar).names :=
  mem_plainRegistry.mpr (Or.inl (Or.inr (mem_counterLevels_iff.mpr ⟨highest, family⟩)))

theorem placeable_counterLevels {grammar : Grammar} (fits : Fits grammar) :
    Layout.Placeable (plainRegistry grammar) (counterLevels grammar.variableNames).toList where
  indexed := indexed_plainRegistry grammar
  small := fits
  distinct := by
    rw [Std.ExtTreeMap.map_fst_toList_eq_keys]
    exact Std.ExtTreeMap.nodup_keys
  isBase _ member := isBase_of_highestLevel? (mem_toList_counterLevels.mp member)
  known _ member := mem_plainRegistry_of_highestLevel? (mem_toList_counterLevels.mp member)

theorem covers_familyLayout {grammar : Grammar} (fits : Fits grammar) :
    Layout.Covers (plainRegistry grammar) (counterLevels grammar.variableNames).toList
      (familyLayout grammar) :=
  Layout.covers_foldl (placeable_counterLevels fits)

/-! ### Other spellings -/

theorem getElem?_respell (symbols : NameMap Symbol) (spelling name : Name) :
    (respell symbols spelling)[name]? =
      match spelling.counter? with
      | some (base, level) =>
        if spelling = name then some (.counter (familyIndex symbols base) level)
        else symbols[name]?
      | none => symbols[name]? := by
  unfold respell
  cases spelling.counter? with
  | none => rfl
  | some family => simp [Std.ExtTreeMap.getElem?_insert]

/-- Names that are not levels keep their meaning when levels are spelled anew. -/
theorem respell_ordinary (symbols : NameMap Symbol) (spelling : Name) {name : Name}
    (ordinary : name.counter? = none) : (respell symbols spelling)[name]? = symbols[name]? := by
  rw [getElem?_respell]
  cases counter : spelling.counter? with
  | none => rfl
  | some family =>
    have different : spelling ≠ name := by
      rintro rfl
      rw [ordinary] at counter
      cases counter
    simp [different]

theorem foldl_respell_ordinary (symbols : NameMap Symbol) (spellings : List Name) {name : Name}
    (ordinary : name.counter? = none) :
    (spellings.foldl respell symbols)[name]? = symbols[name]? := by
  induction spellings generalizing symbols with
  | nil => rfl
  | cons spelling spellings ih =>
    rw [List.foldl_cons, ih, respell_ordinary symbols spelling ordinary]

theorem foldl_respell_not_mem (symbols : NameMap Symbol) {spellings : List Name} {name : Name}
    (absent : name ∉ spellings) :
    (spellings.foldl respell symbols)[name]? = symbols[name]? := by
  induction spellings generalizing symbols with
  | nil => rfl
  | cons spelling spellings ih =>
    obtain ⟨different, later⟩ := not_or.mp (mt List.mem_cons.mpr absent)
    rw [List.foldl_cons, ih _ later, getElem?_respell]
    cases spelling.counter? with
    | none => rfl
    | some family => simp [Ne.symm different]

theorem foldl_respell_mem (symbols : NameMap Symbol) {spellings : List Name} {name base : Name}
    {level : UInt8} (member : name ∈ spellings) (counter : name.counter? = some (base, level)) :
    (spellings.foldl respell symbols)[name]? =
      some (.counter (familyIndex symbols base) level) := by
  induction spellings generalizing symbols with
  | nil => simp at member
  | cons spelling spellings ih =>
    have isBase := Name.isBase_of_counter? counter
    have kept : familyIndex (respell symbols spelling) base = familyIndex symbols base := by
      rw [familyIndex, familyIndex, respell_ordinary symbols spelling isBase.counter?_eq_none]
    rw [List.foldl_cons]
    by_cases later : name ∈ spellings
    · rw [ih _ later, kept]
    · obtain rfl : name = spelling := by simpa [later] using member
      rw [foldl_respell_not_mem _ later, getElem?_respell, counter]
      simp

/-! ### Names to symbols -/

/-- A name that is not a level means its ordinary symbol. -/
theorem symbol?_ordinary {grammar : Grammar} (fits : Fits grammar) {name : Name}
    (ordinary : name.counter? = none) :
    (assemble grammar).symbol? name = (plainRegistry grammar).symbols[name]? := by
  have noLevel : ∀ symbol, ¬Layout.IsLevel (plainRegistry grammar)
      (counterLevels grammar.variableNames).toList symbol name := by
    rintro symbol ⟨base, highest, level, member, positive, -, -, rfl⟩
    have isBase := isBase_of_highestLevel? (mem_toList_counterLevels.mp member)
    rw [Name.counter?_atLevel isBase positive] at ordinary
    cases ordinary
  rw [symbol?, assemble, foldl_respell_ordinary _ _ ordinary,
    (covers_familyLayout fits).lookup_other name noLevel]

/-- A declared level means the counter symbol of its family and level, however it is spelled. -/
theorem symbol?_declared {grammar : Grammar} (fits : Fits grammar) {name base : Name}
    {level : UInt8} (declared : name ∈ grammar.variableNames)
    (counter : name.counter? = some (base, level)) :
    (assemble grammar).symbol? name = some (.counter (baseIndex grammar base) level) := by
  rw [symbol?, assemble, foldl_respell_mem _ (Std.ExtTreeSet.mem_toList.mpr declared) counter,
    (covers_familyLayout fits).familyIndex_eq (placeable_counterLevels fits)
      (Name.isBase_of_counter? counter), baseIndex]

/-- Every allocated level is known under its plain decimal spelling. -/
theorem symbol?_atLevel {grammar : Grammar} (fits : Fits grammar) {base : Name} {level : UInt8}
    (allocated : HasLevel grammar base level) :
    (assemble grammar).symbol? (base.atLevel level) =
      some (.counter (baseIndex grammar base) level) := by
  obtain ⟨highest, family, positive, below⟩ := allocated
  have isBase := isBase_of_highestLevel? family
  by_cases declared : base.atLevel level ∈ grammar.variableNames
  · exact symbol?_declared fits declared (Name.counter?_atLevel isBase positive)
  · have absent : base.atLevel level ∉ grammar.variableNames.toList := by
      rwa [Std.ExtTreeSet.mem_toList]
    rw [symbol?, assemble, foldl_respell_not_mem _ absent]
    exact (covers_familyLayout fits).lookup_level _ _ ⟨base, highest, level,
      mem_toList_counterLevels.mpr family, positive, below, rfl, rfl⟩

/-- A name that is neither declared as a variable nor the plain spelling of an allocated level means
what it was registered for. -/
theorem symbol?_registered {grammar : Grammar} (fits : Fits grammar) {name : Name}
    (undeclared : name ∉ grammar.variableNames)
    (noLevel : ¬∃ base level, HasLevel grammar base level ∧ name = base.atLevel level) :
    (assemble grammar).symbol? name = (plainRegistry grammar).symbols[name]? := by
  have absent : name ∉ grammar.variableNames.toList := by
    rwa [Std.ExtTreeSet.mem_toList]
  rw [symbol?, assemble, foldl_respell_not_mem _ absent]
  apply (covers_familyLayout fits).lookup_other
  rintro symbol ⟨base, highest, level, member, positive, below, -, spelled⟩
  exact noLevel ⟨base, level, ⟨highest, mem_toList_counterLevels.mp member, positive, below⟩,
    spelled⟩

/-- A known name is a level that is allocated, or an ordinary name. -/
theorem symbol?_cases {grammar : Grammar} (fits : Fits grammar) {name : Name} {symbol : Symbol}
    (lookup : (assemble grammar).symbol? name = some symbol) :
    (∃ base level, name.counter? = some (base, level) ∧ HasLevel grammar base level ∧
        symbol = .counter (baseIndex grammar base) level) ∨
      ∃ index : Nat, (plainRegistry grammar).names[index]? = some name ∧
        symbol = .plain index.toUInt16 := by
  by_cases declared : name ∈ grammar.variableNames
  · cases counter : name.counter? with
    | none =>
      rw [symbol?_ordinary fits counter] at lookup
      exact Or.inr (((indexed_plainRegistry grammar).lookup name symbol).mp lookup)
    | some family =>
      obtain ⟨base, level⟩ := family
      rw [symbol?_declared fits declared counter, Option.some.injEq] at lookup
      obtain ⟨highest, allocated, below⟩ := highestLevel?_of_mem declared counter
      exact Or.inl ⟨base, level, rfl,
        ⟨highest, allocated, Name.level_pos_of_counter? counter, below⟩, lookup.symm⟩
  · by_cases isLevel : ∃ base level, HasLevel grammar base level ∧ name = base.atLevel level
    · obtain ⟨base, level, allocated, rfl⟩ := isLevel
      rw [symbol?_atLevel fits allocated, Option.some.injEq] at lookup
      obtain ⟨highest, family, positive, below⟩ := allocated
      exact Or.inl ⟨base, level, Name.counter?_atLevel (isBase_of_highestLevel? family) positive,
        ⟨highest, family, positive, below⟩, lookup.symm⟩
    · rw [symbol?_registered fits declared isLevel] at lookup
      exact Or.inr (((indexed_plainRegistry grammar).lookup name symbol).mp lookup)

/-- The empty name means the boundary. -/
theorem symbol?_empty {grammar : Grammar} (fits : Fits grammar) :
    (assemble grammar).symbol? Name.empty = some (assemble grammar).boundary := by
  have known : Name.empty ∈ (plainRegistry grammar).names :=
    mem_plainRegistry.mpr (Or.inr (Or.inr rfl))
  obtain ⟨index, found⟩ := Array.mem_iff_getElem?.mp known
  have lookup := ((indexed_plainRegistry grammar).lookup Name.empty (.plain index.toUInt16)).mpr
    ⟨index, found, rfl⟩
  rw [symbol?_ordinary fits Name.counter?_empty, lookup]
  simp [assemble, lookup]

end Lindenmayer.Alphabet
