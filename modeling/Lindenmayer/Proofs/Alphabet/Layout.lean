import Lindenmayer.Proofs.Alphabet.Registry

/-!
# Layouts

The last stage of building an alphabet.  Behind the slots of the ordinary symbols each counter
family takes one block of slots, one for each level.  Blocks do not overlap and leave no gap, and
the plain decimal spelling of a level means the symbol of that level.
-/

namespace Lindenmayer.Alphabet.Layout

/-! ### Levels -/

theorem getElem?_levelsUpTo (highest : UInt8) (position : Nat) (level : UInt8) :
    (levelsUpTo highest)[position]? = some level ↔
      position < highest.toNat ∧ level.toNat = position + 1 := by
  have bound := highest.toNat_lt
  simp only [levelsUpTo, List.getElem?_map, Option.map_eq_some_iff, List.getElem?_eq_some_iff,
    List.length_range, List.getElem_range, ← UInt8.toNat_inj, Nat.toUInt8_eq, UInt8.toNat_ofNat']
  constructor
  · intro given
    obtain ⟨index, ⟨small, rfl⟩, equal⟩ := given
    omega
  · intro ⟨small, equal⟩
    exact ⟨position, ⟨small, rfl⟩, by omega⟩

@[simp] theorem mem_levelsUpTo {highest level : UInt8} :
    level ∈ levelsUpTo highest ↔ 0 < level ∧ level ≤ highest := by
  rw [List.mem_iff_getElem?, UInt8.lt_iff_toNat_lt, UInt8.le_iff_toNat_le, UInt8.toNat_zero]
  simp only [getElem?_levelsUpTo]
  constructor
  · intro ⟨position, small, equal⟩
    omega
  · intro ⟨positive, small⟩
    exact ⟨level.toNat - 1, by omega, by omega⟩

/-- The level below one that is not the first is a level too. -/
theorem pred_level {level highest : UInt8} (above : 1 < level) (below : level ≤ highest) :
    0 < level - 1 ∧ level - 1 ≤ highest := by
  have one : (1 : UInt8) ≤ level := UInt8.le_of_lt above
  rw [UInt8.lt_iff_toNat_lt, UInt8.toNat_one] at above
  rw [UInt8.le_iff_toNat_le] at below
  rw [UInt8.lt_iff_toNat_lt, UInt8.le_iff_toNat_le, UInt8.toNat_sub_of_le _ _ one,
    UInt8.toNat_one, UInt8.toNat_zero]
  omega

/-- The counter symbol of a level with the plain spelling of its name. -/
def levelEntry (base : Name) (family : UInt16) (level : UInt8) : Symbol × Name :=
  (.counter family level, base.atLevel level)

/-- Gives the names of levels their symbols. -/
def insertLevels (base : Name) (family : UInt16) (symbols : NameMap Symbol)
    (levels : List UInt8) : NameMap Symbol :=
  levels.foldl (fun symbols level => symbols.insert (base.atLevel level) (.counter family level))
    symbols

theorem foldl_addLevel (base : Name) (family : UInt16) (levels : List UInt8) (layout : Layout) :
    levels.foldl (addLevel base family) layout =
      ⟨layout.families, layout.counters ++ (levels.map (levelEntry base family)).toArray,
        insertLevels base family layout.symbols levels⟩ := by
  induction levels generalizing layout with
  | nil => simp [insertLevels]
  | cons level levels ih => simp [ih, addLevel, insertLevels, levelEntry]

theorem insertLevels_other {base name : Name} (family : UInt16) (symbols : NameMap Symbol)
    {levels : List UInt8} (other : ∀ level ∈ levels, name ≠ base.atLevel level) :
    (insertLevels base family symbols levels)[name]? = symbols[name]? := by
  induction levels generalizing symbols with
  | nil => rfl
  | cons level levels ih =>
    have different : base.atLevel level ≠ name := (other level List.mem_cons_self).symm
    calc
      (insertLevels base family symbols (level :: levels))[name]? =
          (symbols.insert (base.atLevel level) (.counter family level))[name]? :=
        ih _ fun later member => other later (List.mem_cons_of_mem _ member)
      _ = symbols[name]? := by simp [Std.ExtTreeMap.getElem?_insert, different]

theorem insertLevels_level {base : Name} (isBase : base.IsBase) (family : UInt16)
    (symbols : NameMap Symbol) {levels : List UInt8} (positive : ∀ level ∈ levels, 0 < level)
    {level : UInt8} (member : level ∈ levels) :
    (insertLevels base family symbols levels)[base.atLevel level]? =
      some (.counter family level) := by
  induction levels generalizing symbols with
  | nil => simp at member
  | cons first levels ih =>
    have laterPositive : ∀ later ∈ levels, 0 < later := fun later inside =>
      positive later (List.mem_cons_of_mem _ inside)
    by_cases again : level ∈ levels
    · exact ih _ laterPositive again
    · obtain rfl : level = first := by simpa [again] using member
      have last : ∀ later ∈ levels, base.atLevel level ≠ base.atLevel later := by
        intro later inside equal
        have same := Name.atLevel_inj isBase (positive level List.mem_cons_self) isBase
          (laterPositive later inside) equal
        rw [same.2] at again
        exact again inside
      calc
        (insertLevels base family symbols (level :: levels))[base.atLevel level]? =
            (symbols.insert (base.atLevel level) (.counter family level))[base.atLevel level]? :=
          insertLevels_other family _ last
        _ = some (.counter family level) := by simp

/-! ### Slots of levels -/

/-- The slot of a level in the families laid out so far. -/
def slot? (layout : Layout) (index : UInt16) (level : UInt8) : Option Nat :=
  match layout.families[index.toNat]?.join with
  | some family =>
    if level = 0 ∨ family.maxLevel < level then none
    else some (family.firstSlot + level.toNat - 1)
  | none => none

/-- A symbol and a name of the same level of one of the given families. -/
def IsLevel (plain : Registry) (families : List (Name × UInt8)) (symbol : Symbol) (name : Name) :
    Prop :=
  ∃ base highest level, (base, highest) ∈ families ∧ 0 < level ∧ level ≤ highest ∧
    symbol = .counter (familyIndex plain.symbols base) level ∧ name = base.atLevel level

/-- Families that can be laid out behind a registry: their bases are known to it, and each of them
occurs once. -/
structure Placeable (plain : Registry) (families : List (Name × UInt8)) : Prop where
  indexed : plain.Indexed
  small : plain.names.size ≤ maxPlainSymbols
  distinct : (families.map Prod.fst).Nodup
  isBase : ∀ entry ∈ families, entry.1.IsBase
  known : ∀ entry ∈ families, entry.1 ∈ plain.names

/-- What holds of a layout once the given families are laid out: it lists exactly their levels,
the names of the levels mean them, and the slots of the levels are their positions in the list. -/
structure Covers (plain : Registry) (families : List (Name × UInt8)) (layout : Layout) : Prop where
  size_families : layout.families.size = plain.names.size
  mem_counters : ∀ symbol name, (symbol, name) ∈ layout.counters ↔
    IsLevel plain families symbol name
  lookup_level : ∀ symbol name, IsLevel plain families symbol name →
    layout.symbols[name]? = some symbol
  lookup_other : ∀ name, (∀ symbol, ¬IsLevel plain families symbol name) →
    layout.symbols[name]? = plain.symbols[name]?
  family_iff : ∀ index highest,
    (∃ first, layout.families[index]? = some (some ⟨first, highest⟩)) ↔
      ∃ base, (base, highest) ∈ families ∧ (familyIndex plain.symbols base).toNat = index
  slot_iff : ∀ index level slot, layout.slot? index level = some slot ↔
    plain.names.size ≤ slot ∧
      ∃ name, layout.counters[slot - plain.names.size]? = some (.counter index level, name)

theorem covers_start (plain : Registry) : Covers plain [] (start plain) where
  size_families := by simp [start]
  mem_counters := by simp [start, IsLevel]
  lookup_level := by simp [IsLevel]
  lookup_other := by simp [start]
  family_iff := by simp [start, Array.getElem?_replicate]
  slot_iff := by
    intro index level slot
    have empty : (start plain).families[index.toNat]?.join = none := by
      simp only [start, Array.getElem?_replicate]
      split <;> rfl
    simp only [slot?, empty]
    simp [start]

/-! ### One more family -/

section

variable {plain : Registry} {families : List (Name × UInt8)} {base : Name} {highest : UInt8}
  {layout : Layout}

theorem isLevel_concat {symbol : Symbol} {name : Name} :
    IsLevel plain (families ++ [(base, highest)]) symbol name ↔
      IsLevel plain families symbol name ∨
        (symbol, name) ∈ (levelsUpTo highest).map
          (levelEntry base (familyIndex plain.symbols base)) := by
  simp only [IsLevel, List.mem_append, List.mem_singleton, List.mem_map, mem_levelsUpTo,
    levelEntry, Prod.mk.injEq]
  constructor
  · intro given
    rcases given with ⟨other, top, level, old | ⟨rfl, rfl⟩, positive, below, rfl, rfl⟩
    · exact Or.inl ⟨other, top, level, old, positive, below, rfl, rfl⟩
    · exact Or.inr ⟨level, ⟨positive, below⟩, rfl, rfl⟩
  · intro given
    rcases given with ⟨other, top, level, old, rest⟩ | ⟨level, ⟨positive, below⟩, rfl, rfl⟩
    · exact ⟨other, top, level, Or.inl old, rest⟩
    · exact ⟨base, highest, level, Or.inr ⟨rfl, rfl⟩, positive, below, rfl, rfl⟩

theorem Placeable.init (placeable : Placeable plain (families ++ [(base, highest)])) :
    Placeable plain families where
  indexed := placeable.indexed
  small := placeable.small
  distinct := by
    have distinct := placeable.distinct
    rw [List.map_append] at distinct
    exact (List.nodup_append.mp distinct).1
  isBase entry member := placeable.isBase entry (List.mem_append_left _ member)
  known entry member := placeable.known entry (List.mem_append_left _ member)

/-- The bases of different families have different ordinary symbols. -/
theorem Placeable.familyIndex_ne (placeable : Placeable plain (families ++ [(base, highest)]))
    {other : Name} {top : UInt8} (member : (other, top) ∈ families) :
    familyIndex plain.symbols other ≠ familyIndex plain.symbols base := by
  intro equal
  have otherAt := placeable.indexed.getElem?_familyIndex placeable.small
    (placeable.known (other, top) (List.mem_append_left _ member))
  have baseAt := placeable.indexed.getElem?_familyIndex placeable.small
    (placeable.known (base, highest) (by simp))
  rw [equal, baseAt, Option.some.injEq] at otherAt
  have distinct := placeable.distinct
  rw [List.map_append, List.nodup_append] at distinct
  exact distinct.2.2 other (List.mem_map.mpr ⟨_, member, rfl⟩) base (by simp) otherAt.symm

/-- Bases keep their ordinary symbols while families are laid out. -/
theorem Covers.familyIndex_eq (covers : Covers plain families layout)
    (placeable : Placeable plain families) (isBase : base.IsBase) :
    familyIndex layout.symbols base = familyIndex plain.symbols base := by
  have ordinary : ∀ symbol, ¬IsLevel plain families symbol base := by
    rintro symbol ⟨other, top, level, member, positive, -, -, spelled⟩
    have found := Name.counter?_atLevel (placeable.isBase _ member) positive
    rw [← spelled, isBase.counter?_eq_none] at found
    cases found
  rw [familyIndex, familyIndex, covers.lookup_other base ordinary]

theorem getElem?_block {family index : UInt16} {level : UInt8} {name : Name} {position : Nat} :
    ((levelsUpTo highest).map (levelEntry base family))[position]? =
        some (.counter index level, name) ↔
      (position < highest.toNat ∧ level.toNat = position + 1) ∧ family = index ∧
        base.atLevel level = name := by
  simp only [List.getElem?_map, Option.map_eq_some_iff, levelEntry, Prod.mk.injEq,
    Symbol.counter.injEq]
  constructor
  · intro given
    obtain ⟨level', found, ⟨rfl, rfl⟩, rfl⟩ := given
    exact ⟨(getElem?_levelsUpTo ..).mp found, rfl, rfl⟩
  · intro given
    obtain ⟨found, rfl, rfl⟩ := given
    exact ⟨level, (getElem?_levelsUpTo ..).mpr found, ⟨rfl, rfl⟩, rfl⟩

section

variable (covers : Covers plain families layout)
  (placeable : Placeable plain (families ++ [(base, highest)]))
include covers placeable

theorem Covers.familyIndex_lt :
    (familyIndex plain.symbols base).toNat < layout.families.size := by
  have baseAt := placeable.indexed.getElem?_familyIndex placeable.small
    (placeable.known (base, highest) (by simp))
  rw [covers.size_families]
  exact (Array.getElem?_eq_some_iff.mp baseAt).1

/-- A family takes the next block of slots. -/
theorem Covers.addFamily_eq :
    layout.addFamily plain.names.size base highest =
      ⟨layout.families.setIfInBounds (familyIndex plain.symbols base).toNat
          (some ⟨plain.names.size + layout.counters.size, highest⟩),
        layout.counters ++
          ((levelsUpTo highest).map (levelEntry base (familyIndex plain.symbols base))).toArray,
        insertLevels base (familyIndex plain.symbols base) layout.symbols
          (levelsUpTo highest)⟩ := by
  have isBase : base.IsBase := placeable.isBase (base, highest) (by simp)
  rw [← covers.familyIndex_eq placeable.init isBase]
  simp [addFamily, foldl_addLevel]

theorem Covers.lookup_level_addFamily {symbol : Symbol} {name : Name}
    (isLevel : IsLevel plain (families ++ [(base, highest)]) symbol name) :
    (layout.addFamily plain.names.size base highest).symbols[name]? = some symbol := by
  have isBase : base.IsBase := placeable.isBase (base, highest) (by simp)
  rw [covers.addFamily_eq placeable]
  rcases isLevel_concat.mp isLevel with old | new
  · rw [insertLevels_other, covers.lookup_level symbol name old]
    obtain ⟨other, top, level, member, positive, -, -, rfl⟩ := old
    intro level' inside equal
    obtain ⟨rfl, -⟩ := Name.atLevel_inj (placeable.init.isBase _ member) positive isBase
      (mem_levelsUpTo.mp inside).1 equal
    exact placeable.familyIndex_ne member rfl
  · obtain ⟨level, inside, equal⟩ := List.mem_map.mp new
    simp only [levelEntry, Prod.mk.injEq] at equal
    obtain ⟨rfl, rfl⟩ := equal
    exact insertLevels_level isBase _ layout.symbols
      (fun later member => (mem_levelsUpTo.mp member).1) inside

theorem Covers.lookup_other_addFamily {name : Name}
    (other : ∀ symbol, ¬IsLevel plain (families ++ [(base, highest)]) symbol name) :
    (layout.addFamily plain.names.size base highest).symbols[name]? = plain.symbols[name]? := by
  rw [covers.addFamily_eq placeable]
  simp only [isLevel_concat, not_or] at other
  rw [insertLevels_other, covers.lookup_other name fun symbol => (other symbol).1]
  rintro level inside rfl
  exact (other (.counter _ level)).2 (List.mem_map.mpr ⟨level, inside, rfl⟩)

theorem Covers.family_iff_addFamily (index : Nat) (top : UInt8) :
    (∃ first, (layout.addFamily plain.names.size base highest).families[index]? =
        some (some ⟨first, top⟩)) ↔
      ∃ other, (other, top) ∈ families ++ [(base, highest)] ∧
        (familyIndex plain.symbols other).toNat = index := by
  rw [covers.addFamily_eq placeable]
  simp only [Array.getElem?_setIfInBounds, covers.familyIndex_lt placeable, if_true,
    List.mem_append, List.mem_singleton, Prod.mk.injEq]
  by_cases same : (familyIndex plain.symbols base).toNat = index
  · subst same
    simp only [if_true, Option.some.injEq, Family.mk.injEq]
    constructor
    · intro given
      obtain ⟨first, -, rfl⟩ := given
      exact ⟨base, Or.inr ⟨rfl, rfl⟩, rfl⟩
    · intro given
      rcases given with ⟨other, member | ⟨-, rfl⟩, equal⟩
      · exact absurd (UInt16.toNat_inj.mp equal) (placeable.familyIndex_ne member)
      · exact ⟨_, rfl, rfl⟩
  · rw [if_neg same, covers.family_iff]
    constructor
    · intro ⟨other, member, equal⟩
      exact ⟨other, Or.inl member, equal⟩
    · intro given
      rcases given with ⟨other, member | ⟨rfl, rfl⟩, equal⟩
      · exact ⟨other, member, equal⟩
      · exact absurd equal same

/-- The levels laid out before belong to other families. -/
theorem Covers.getElem?_counters_ne {position : Nat} {level : UInt8} {name : Name} :
    layout.counters[position]? ≠
      some (Symbol.counter (familyIndex plain.symbols base) level, name) := by
  intro found
  obtain ⟨other, top, level', member, -, -, equal, -⟩ :=
    (covers.mem_counters _ _).mp (Array.mem_of_getElem? found)
  exact placeable.familyIndex_ne member (Symbol.counter.inj equal).1.symm

theorem Covers.slot_iff_self (level : UInt8) (slot : Nat) :
    (layout.addFamily plain.names.size base highest).slot? (familyIndex plain.symbols base) level =
        some slot ↔
      plain.names.size ≤ slot ∧
        ∃ name, (layout.addFamily plain.names.size base highest).counters[
          slot - plain.names.size]? =
            some (.counter (familyIndex plain.symbols base) level, name) := by
  have inRange := covers.familyIndex_lt placeable
  have valid : ¬(level = 0 ∨ highest < level) ↔
      1 ≤ level.toNat ∧ level.toNat ≤ highest.toNat := by
    rw [← UInt8.toNat_inj, UInt8.lt_iff_toNat_lt, UInt8.toNat_zero]
    omega
  rw [covers.addFamily_eq placeable, slot?]
  simp only [Array.getElem?_append, List.getElem?_toArray,
    Array.getElem?_setIfInBounds_self_of_lt inRange, Option.join_some]
  constructor
  · intro placed
    split at placed
    · cases placed
    next inside =>
      rw [valid] at inside
      obtain rfl := Option.some.inj placed
      refine ⟨by omega, base.atLevel level, ?_⟩
      rw [if_neg (by omega), getElem?_block]
      exact ⟨⟨by omega, by omega⟩, rfl, rfl⟩
  · intro ⟨above, name, found⟩
    split at found
    · exact absurd found (covers.getElem?_counters_ne placeable)
    · rw [getElem?_block] at found
      rw [if_neg (valid.mpr (by omega)), Option.some.injEq]
      omega

theorem Covers.slot_iff_other {index : UInt16} (other : familyIndex plain.symbols base ≠ index)
    (level : UInt8) (slot : Nat) :
    (layout.addFamily plain.names.size base highest).slot? index level = some slot ↔
      plain.names.size ≤ slot ∧
        ∃ name, (layout.addFamily plain.names.size base highest).counters[
          slot - plain.names.size]? = some (.counter index level, name) := by
  have apart : (familyIndex plain.symbols base).toNat ≠ index.toNat := fun equal =>
    other (UInt16.toNat_inj.mp equal)
  rw [covers.addFamily_eq placeable, slot?]
  simp only [Array.getElem?_append, List.getElem?_toArray,
    Array.getElem?_setIfInBounds_ne apart]
  refine (covers.slot_iff index level slot).trans (and_congr_right fun above => ?_)
  constructor
  · intro ⟨name, found⟩
    have old : slot - plain.names.size < layout.counters.size :=
      (Array.getElem?_eq_some_iff.mp found).1
    exact ⟨name, by rw [if_pos old, found]⟩
  · intro ⟨name, found⟩
    split at found
    · exact ⟨name, found⟩
    · rw [getElem?_block] at found
      exact absurd found.2.1 other

theorem Covers.addFamily :
    Covers plain (families ++ [(base, highest)])
      (layout.addFamily plain.names.size base highest) where
  size_families := by
    rw [covers.addFamily_eq placeable]
    simpa using covers.size_families
  mem_counters symbol name := by
    rw [isLevel_concat, ← covers.mem_counters, covers.addFamily_eq placeable]
    simp
  lookup_level _ _ := covers.lookup_level_addFamily placeable
  lookup_other _ := covers.lookup_other_addFamily placeable
  family_iff := covers.family_iff_addFamily placeable
  slot_iff index level slot := by
    by_cases self : familyIndex plain.symbols base = index
    · subst self
      exact covers.slot_iff_self placeable level slot
    · exact covers.slot_iff_other placeable self level slot

end

end

/-- Laying out all families covers them all. -/
theorem covers_foldl {plain : Registry} {families : List (Name × UInt8)}
    (placeable : Placeable plain families) :
    Covers plain families (families.foldl
      (fun layout (base, highest) => layout.addFamily plain.names.size base highest)
      (start plain)) := by
  induction families using List.reverseRecOn with
  | nil => exact covers_start plain
  | append_singleton families entry ih =>
    obtain ⟨base, highest⟩ := entry
    rw [List.foldl_append]
    exact (ih placeable.init).addFamily placeable

end Lindenmayer.Alphabet.Layout
