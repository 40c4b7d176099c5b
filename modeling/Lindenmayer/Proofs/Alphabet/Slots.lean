import Lindenmayer.Proofs.Alphabet.Lookup

/-!
# Slots and spellings

Different symbols of an alphabet have different slots, and all of them have one: the ordinary
symbols by index, the levels of the families behind them.  The spelling of an allocated level is
the plain decimal one.
-/

namespace Lindenmayer.Alphabet

/-! ### Slots -/

theorem slot?_plain_iff {alphabet : Alphabet} {index : UInt16} {slot : Nat} :
    alphabet.slot? (.plain index) = some slot ↔
      index.toNat = slot ∧ slot < alphabet.names.size := by
  simp only [slot?]
  split
  · rename_i inside
    simp only [Option.some.injEq]
    omega
  · simp only [reduceCtorEq, false_iff]
    omega

/-- The slot of a level is its position among all levels, behind the ordinary symbols. -/
theorem slot?_counter_iff {grammar : Grammar} (fits : Fits grammar) {index : UInt16}
    {level : UInt8} {slot : Nat} :
    (assemble grammar).slot? (.counter index level) = some slot ↔
      (assemble grammar).names.size ≤ slot ∧ ∃ name,
        (assemble grammar).counters[slot - (assemble grammar).names.size]? =
          some (.counter index level, name) :=
  (covers_familyLayout fits).slot_iff index level slot

theorem slot?_lt_slotCount {grammar : Grammar} (fits : Fits grammar) {symbol : Symbol} {slot : Nat}
    (placed : (assemble grammar).slot? symbol = some slot) :
    slot < (assemble grammar).slotCount := by
  rw [slotCount]
  cases symbol with
  | plain index =>
    have inside := (slot?_plain_iff.mp placed).2
    omega
  | counter index level =>
    obtain ⟨above, name, found⟩ := (slot?_counter_iff fits).mp placed
    have inside := (Array.getElem?_eq_some_iff.mp found).1
    omega

/-- No two symbols share a slot. -/
theorem slot?_injective {grammar : Grammar} (fits : Fits grammar) {a b : Symbol} {slot : Nat}
    (placedA : (assemble grammar).slot? a = some slot)
    (placedB : (assemble grammar).slot? b = some slot) : a = b := by
  cases a with
  | plain indexA =>
    obtain ⟨atA, inside⟩ := slot?_plain_iff.mp placedA
    cases b with
    | plain indexB =>
      obtain ⟨atB, -⟩ := slot?_plain_iff.mp placedB
      rw [UInt16.toNat_inj.mp (atA.trans atB.symm)]
    | counter indexB levelB =>
      obtain ⟨above, -⟩ := (slot?_counter_iff fits).mp placedB
      omega
  | counter indexA levelA =>
    obtain ⟨above, nameA, foundA⟩ := (slot?_counter_iff fits).mp placedA
    cases b with
    | plain indexB =>
      obtain ⟨-, inside⟩ := slot?_plain_iff.mp placedB
      omega
    | counter indexB levelB =>
      obtain ⟨-, nameB, foundB⟩ := (slot?_counter_iff fits).mp placedB
      rw [foundA, Option.some.injEq, Prod.mk.injEq] at foundB
      exact foundB.1

/-! ### Spellings -/

/-- Ordinary symbols have the slot of their index and are spelled as registered. -/
theorem plain_entry {grammar : Grammar} (fits : Fits grammar) {index : Nat} {name : Name}
    (registered : (plainRegistry grammar).names[index]? = some name) :
    (assemble grammar).slot? (.plain index.toUInt16) = some index ∧
      (assemble grammar).name? (.plain index.toUInt16) = some name := by
  have inside : index < (plainRegistry grammar).names.size :=
    (Array.getElem?_eq_some_iff.mp registered).1
  have small : (plainRegistry grammar).names.size ≤ 65536 := fits
  have indexEq : index.toUInt16.toNat = index := by
    simp only [Nat.toUInt16_eq, UInt16.toNat_ofNat']
    omega
  have spelled : (assemble grammar).names[index]? = some name := registered
  constructor
  · exact slot?_plain_iff.mpr ⟨indexEq, inside⟩
  · simp only [name?, Symbol.isCounter, Symbol.family, indexEq, spelled]

/-- Allocated levels have a slot and are spelled in plain decimal. -/
theorem counter_entry {grammar : Grammar} (fits : Fits grammar) {base : Name} {level : UInt8}
    (allocated : HasLevel grammar base level) :
    (∃ slot, (assemble grammar).slot? (.counter (baseIndex grammar base) level) = some slot) ∧
      (assemble grammar).name? (.counter (baseIndex grammar base) level) =
        some (base.atLevel level) := by
  obtain ⟨highest, family, positive, below⟩ := allocated
  have listed := ((covers_familyLayout fits).mem_counters
    (.counter (baseIndex grammar base) level) (base.atLevel level)).mpr
    ⟨base, highest, level, mem_toList_counterLevels.mpr family, positive, below, rfl, rfl⟩
  obtain ⟨position, found⟩ := Array.mem_iff_getElem?.mp listed
  have placed : (assemble grammar).slot? (.counter (baseIndex grammar base) level) =
      some ((assemble grammar).names.size + position) :=
    (slot?_counter_iff fits).mpr ⟨Nat.le_add_right _ _, base.atLevel level, by
      rw [Nat.add_sub_cancel_left]
      exact found⟩
  refine ⟨⟨_, placed⟩, ?_⟩
  have spelled : (assemble grammar).counters[position]? =
      some (.counter (baseIndex grammar base) level, base.atLevel level) := found
  simp [name?, Symbol.isCounter, placed, spelled]

/-- The symbol of a name always has a slot. -/
theorem slot?_of_symbol? {grammar : Grammar} (fits : Fits grammar) {name : Name} {symbol : Symbol}
    (lookup : (assemble grammar).symbol? name = some symbol) :
    ∃ slot, (assemble grammar).slot? symbol = some slot := by
  rcases symbol?_cases fits lookup with ⟨base, level, -, allocated, rfl⟩ | ⟨index, registered, rfl⟩
  · exact (counter_entry fits allocated).1
  · exact ⟨index, (plain_entry fits registered).1⟩

/-! ### Grammars whose constants are ordinary -/

/-- No constant is spelled like a level of a family. -/
def OrdinaryConstants (grammar : Grammar) : Prop :=
  ∀ name ∈ grammar.constantNames, name.counter? = none

theorem counter?_of_registered {grammar : Grammar} (constants : OrdinaryConstants grammar)
    {index : Nat} {name : Name} (registered : (plainRegistry grammar).names[index]? = some name) :
    name.counter? = none := by
  rcases mem_plainRegistry.mp (Array.mem_of_getElem? registered) with
    (⟨-, ordinary⟩ | family) | constant | rfl
  · exact ordinary
  · obtain ⟨highest, lookup⟩ := mem_counterLevels_iff.mp family
    exact (isBase_of_highestLevel? lookup).counter?_eq_none
  · exact constants name constant
  · exact Name.counter?_empty

/-- A symbol is spelled the canonical way of every name that means it. -/
theorem name?_of_symbol? {grammar : Grammar} (fits : Fits grammar)
    (constants : OrdinaryConstants grammar) {name : Name} {symbol : Symbol}
    (lookup : (assemble grammar).symbol? name = some symbol) :
    (assemble grammar).name? symbol = some name.canonical := by
  rcases symbol?_cases fits lookup with
    ⟨base, level, counter, allocated, rfl⟩ | ⟨index, registered, rfl⟩
  · rw [(counter_entry fits allocated).2, Name.canonical_of_counter? counter]
  · rw [(plain_entry fits registered).2,
      Name.canonical_of_counter?_eq_none (counter?_of_registered constants registered)]

/-- The canonical spelling of a known name means the same symbol. -/
theorem symbol?_canonical {grammar : Grammar} (fits : Fits grammar)
    (constants : OrdinaryConstants grammar) {name : Name} {symbol : Symbol}
    (lookup : (assemble grammar).symbol? name = some symbol) :
    (assemble grammar).symbol? name.canonical = some symbol := by
  rcases symbol?_cases fits lookup with
    ⟨base, level, counter, allocated, rfl⟩ | ⟨index, registered, -⟩
  · rw [Name.canonical_of_counter? counter, symbol?_atLevel fits allocated]
  · rwa [Name.canonical_of_counter?_eq_none (counter?_of_registered constants registered)]

/-- Two known names mean the same symbol exactly when they have the same canonical spelling. -/
theorem symbol?_eq_iff_canonical {grammar : Grammar} (fits : Fits grammar)
    (constants : OrdinaryConstants grammar) {name other : Name} {symbol symbol' : Symbol}
    (lookup : (assemble grammar).symbol? name = some symbol)
    (lookup' : (assemble grammar).symbol? other = some symbol') :
    symbol = symbol' ↔ name.canonical = other.canonical := by
  constructor
  · rintro rfl
    have spelled := name?_of_symbol? fits constants lookup
    rw [name?_of_symbol? fits constants lookup'] at spelled
    exact (Option.some.inj spelled).symm
  · intro equal
    have known := symbol?_canonical fits constants lookup
    rw [equal, symbol?_canonical fits constants lookup'] at known
    exact (Option.some.inj known).symm

end Lindenmayer.Alphabet
