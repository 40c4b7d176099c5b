import Lindenmayer.Proofs.LSystem.Productions

/-!
# Entries and slots

The entries of an alphabet list all its symbols by slot: the position of a symbol in the list is its
slot, and every slot is the position of one symbol.  A table with one place for each entry can
therefore be indexed by the slots of symbols, and stepping a counter down never leads out of it.
-/

namespace Lindenmayer.Alphabet

/-- The symbol is one of the alphabet and goes by the name. -/
structure Shows (alphabet : Alphabet) (name : Name) (symbol : Symbol) : Prop where
  placed : ∃ slot, alphabet.slot? symbol = some slot
  spelled : alphabet.name? symbol = some name

/-! ### The list of entries -/

theorem length_entries (alphabet : Alphabet) : alphabet.entries.length = alphabet.slotCount := by
  simp [entries, slotCount]

theorem getElem?_entries_plain {alphabet : Alphabet} {slot : Nat}
    (ordinary : slot < alphabet.names.size) :
    alphabet.entries[slot]? =
      alphabet.names[slot]?.map fun name => (.plain slot.toUInt16, name) := by
  rw [entries, List.getElem?_append_left (by simpa using ordinary), List.getElem?_mapIdx,
    Array.getElem?_toList]

theorem getElem?_entries_counter {alphabet : Alphabet} {slot : Nat}
    (beyond : alphabet.names.size ≤ slot) :
    alphabet.entries[slot]? = alphabet.counters[slot - alphabet.names.size]? := by
  rw [entries, List.getElem?_append_right (by simpa using beyond)]
  simp

section

variable {grammar : Grammar} (fits : Fits grammar)
include fits

/-- Only levels of families are listed behind the ordinary symbols. -/
theorem exists_counter_of_getElem? {position : Nat} {symbol : Symbol} {name : Name}
    (listed : (assemble grammar).counters[position]? = some (symbol, name)) :
    ∃ base level, HasLevel grammar base level ∧
      symbol = .counter (baseIndex grammar base) level ∧ name = base.atLevel level := by
  obtain ⟨base, highest, level, member, positive, below, rfl, rfl⟩ :=
    ((covers_familyLayout fits).mem_counters symbol name).mp (Array.mem_of_getElem? listed)
  exact ⟨base, level, ⟨highest, mem_toList_counterLevels.mp member, positive, below⟩, rfl, rfl⟩

/-- The position of an entry is the slot of its symbol, and its name is the name of its symbol. -/
theorem slot?_of_getElem?_entries {slot : Nat} {symbol : Symbol} {name : Name}
    (listed : (assemble grammar).entries[slot]? = some (symbol, name)) :
    (assemble grammar).slot? symbol = some slot ∧
      (assemble grammar).name? symbol = some name := by
  by_cases ordinary : slot < (assemble grammar).names.size
  · rw [getElem?_entries_plain ordinary, Option.map_eq_some_iff] at listed
    obtain ⟨registered, found, equal⟩ := listed
    obtain ⟨rfl, rfl⟩ := Prod.mk.inj equal
    exact plain_entry fits found
  · have beyond := Nat.le_of_not_lt ordinary
    rw [getElem?_entries_counter beyond] at listed
    obtain ⟨base, level, allocated, rfl, rfl⟩ := exists_counter_of_getElem? fits listed
    refine ⟨?_, (counter_entry fits allocated).2⟩
    exact (slot?_counter_iff fits).mpr ⟨beyond, base.atLevel level, listed⟩

/-- A symbol with a slot is the one listed there. -/
theorem getElem?_entries_of_slot? {symbol : Symbol} {slot : Nat}
    (placed : (assemble grammar).slot? symbol = some slot) :
    ∃ name, (assemble grammar).entries[slot]? = some (symbol, name) := by
  cases symbol with
  | plain index =>
    obtain ⟨rfl, inside⟩ := slot?_plain_iff.mp placed
    refine ⟨(assemble grammar).names[index.toNat], ?_⟩
    rw [getElem?_entries_plain inside, Array.getElem?_eq_getElem inside]
    simp
  | counter index level =>
    obtain ⟨beyond, name, found⟩ := (slot?_counter_iff fits).mp placed
    exact ⟨name, (getElem?_entries_counter beyond).trans found⟩

/-- A symbol with a slot has a name. -/
theorem name?_of_slot? {symbol : Symbol} {slot : Nat}
    (placed : (assemble grammar).slot? symbol = some slot) :
    ∃ name, (assemble grammar).name? symbol = some name := by
  obtain ⟨name, listed⟩ := getElem?_entries_of_slot? fits placed
  exact ⟨name, (slot?_of_getElem?_entries fits listed).2⟩

/-- A level with a slot goes by the name of its base, followed by the level. -/
theorem name?_counter_of_slot? {index : UInt16} {level : UInt8} {slot : Nat}
    (placed : (assemble grammar).slot? (.counter index level) = some slot) :
    ∃ base, (assemble grammar).names[index.toNat]? = some base ∧
      (assemble grammar).name? (.counter index level) = some (base.atLevel level) := by
  obtain ⟨-, name, found⟩ := (slot?_counter_iff fits).mp placed
  obtain ⟨base, level, allocated, equal, rfl⟩ := exists_counter_of_getElem? fits found
  obtain ⟨rfl, rfl⟩ := Symbol.counter.inj equal
  have spelled := (counter_entry fits allocated).2
  obtain ⟨highest, family, -, -⟩ := allocated
  refine ⟨base, ?_, spelled⟩
  exact (indexed_plainRegistry grammar).getElem?_familyIndex fits
    (mem_plainRegistry_of_highestLevel? family)

/-- Decoding symbols of the alphabet gives the names that they go by. -/
theorem shows_decode {word : List Symbol}
    (placed : ∀ symbol ∈ word, ∃ slot, (assemble grammar).slot? symbol = some slot) :
    List.Forall₂ (assemble grammar).Shows ((assemble grammar).decode word) word := by
  rw [decode, List.forall₂_map_left_iff, List.forall₂_same]
  intro symbol member
  obtain ⟨slot, found⟩ := placed symbol member
  obtain ⟨name, spelled⟩ := name?_of_slot? fits found
  refine ⟨⟨slot, found⟩, ?_⟩
  rw [spelled, Option.getD_some]

theorem exists_slot? {slot : Nat} (inside : slot < (assemble grammar).slotCount) :
    ∃ symbol, (assemble grammar).slot? symbol = some slot := by
  rw [← length_entries] at inside
  have listed := List.getElem?_eq_getElem inside
  exact ⟨_, (slot?_of_getElem?_entries fits listed).1⟩

end

/-! ### Stepping down -/

/-- The levels with a slot are those from 1 to the highest of the family. -/
theorem exists_slot?_counter_iff {alphabet : Alphabet} {index : UInt16} {level : UInt8} :
    (∃ slot, alphabet.slot? (.counter index level) = some slot) ↔
      ∃ highest, alphabet.maxLevel? index = some highest ∧ 0 < level ∧ level ≤ highest := by
  simp only [slot?, maxLevel?]
  cases alphabet.family? index with
  | none => simp
  | some family => simp [UInt8.pos_iff_ne_zero]

/-- Stepping a counter down stays within its family. -/
theorem slot?_lowered {alphabet : Alphabet} {symbol : Symbol} {slot : Nat}
    (placed : alphabet.slot? symbol = some slot) :
    ∃ lower, alphabet.slot? symbol.lowered = some lower := by
  cases symbol with
  | plain index => exact ⟨slot, placed⟩
  | counter index level =>
    by_cases above : 1 < level
    · obtain ⟨highest, family, -, below⟩ := exists_slot?_counter_iff.mp ⟨slot, placed⟩
      rw [Symbol.lowered, if_pos above]
      exact exists_slot?_counter_iff.mpr ⟨highest, family, Layout.pred_level above below⟩
    · rw [Symbol.lowered, if_neg above]
      exact ⟨slot, placed⟩

/-! ### Dense slots -/

/-- The slots of a built alphabet number its symbols without gaps: the entries are listed by slot,
each slot is that of exactly one symbol, and the symbol below a counter has a slot as well.  So a
table of productions has a place for every symbol, however far it is filled, and the slot of a level
is a position in the list of levels, behind the ordinary symbols. -/
theorem slots_dense {grammar : Grammar} {alphabet : Alphabet}
    (built : build grammar = .ok alphabet) :
    alphabet.entries.length = alphabet.slotCount ∧
    (∀ slot symbol name, alphabet.entries[slot]? = some (symbol, name) →
      alphabet.slot? symbol = some slot ∧ alphabet.name? symbol = some name) ∧
    (∀ symbol slot, alphabet.slot? symbol = some slot →
      ∃ name, alphabet.entries[slot]? = some (symbol, name)) ∧
    (∀ slot, slot < alphabet.slotCount → ∃! symbol, alphabet.slot? symbol = some slot) ∧
    (∀ symbol slot, alphabet.slot? symbol = some slot →
      ∃ lower, alphabet.slot? symbol.lowered = some lower) ∧
    (∀ symbol slot, alphabet.slot? symbol = some slot →
      ∀ filled : List (Symbol × Production), slot < (filled.foldl (LSystem.store alphabet)
        (Array.replicate alphabet.slotCount none)).size) ∧
    (∀ index level slot, alphabet.slot? (.counter index level) = some slot →
      alphabet.names.size ≤ slot ∧ slot - alphabet.names.size < alphabet.counters.size) := by
  obtain ⟨fits, -, rfl⟩ := build_eq_ok_iff.mp built
  refine ⟨length_entries _, fun _ _ _ => slot?_of_getElem?_entries fits,
    fun _ _ => getElem?_entries_of_slot? fits, ?unique, fun _ _ => slot?_lowered, ?table, ?levels⟩
  case unique =>
    intro slot inside
    obtain ⟨symbol, placed⟩ := exists_slot? fits inside
    exact ⟨symbol, placed, fun other also => slot?_injective fits also placed⟩
  case table =>
    intro symbol slot placed filled
    rw [LSystem.size_foldl_store, Array.size_replicate]
    exact slot?_lt_slotCount fits placed
  case levels =>
    intro index level slot placed
    obtain ⟨beyond, name, found⟩ := (slot?_counter_iff fits).mp placed
    exact ⟨beyond, (Array.getElem?_eq_some_iff.mp found).1⟩

/-- Two families of different heights next to each other, one of them spelled in two ways, and a
constant that is spelled like a level without being one. -/
def twoFamilies : Grammar :=
  ⟨.ofList (["A", "S3", "T2", "T01"].map Name.mk), .ofList (["[", "S9"].map Name.mk), ∅⟩

theorem slots_dense_twoFamilies :
    ∃ alphabet, build twoFamilies = .ok alphabet ∧ alphabet.slotCount = 11 ∧
      alphabet.entries[9]? = some (.counter 2 1, ⟨"T1"⟩) ∧
      alphabet.slot? (.counter 2 1) = some 9 ∧ alphabet.name? (.counter 2 1) = some ⟨"T1"⟩ ∧
      (∀ symbol, alphabet.slot? symbol = some 9 → symbol = .counter 2 1) ∧
      alphabet.name? (.plain 3) = some ⟨"S9"⟩ := by
  have evaluated : (build twoFamilies).toOption.map (fun alphabet =>
      (alphabet.slotCount, alphabet.entries[9]?, alphabet.entries[3]?)) =
        some (11, some (.counter 2 1, ⟨"T1"⟩), some (.plain 3, ⟨"S9"⟩)) := by decide +kernel
  obtain ⟨alphabet, built, read⟩ := exists_ok_of_toOption_map evaluated
  obtain ⟨count, level, constant⟩ : alphabet.slotCount = 11 ∧
      alphabet.entries[9]? = some (.counter 2 1, ⟨"T1"⟩) ∧
      alphabet.entries[3]? = some (.plain 3, ⟨"S9"⟩) := by
    simpa using read
  obtain ⟨-, listed, -, unique, -⟩ := slots_dense built
  obtain ⟨placed, spelled⟩ := listed 9 _ _ level
  refine ⟨alphabet, built, count, level, placed, spelled, ?_, (listed 3 _ _ constant).2⟩
  intro symbol also
  exact (unique 9 (by omega)).unique also placed

end Lindenmayer.Alphabet
