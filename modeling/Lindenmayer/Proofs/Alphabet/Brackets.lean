import Lindenmayer.Proofs.Alphabet.Encoding
import Lindenmayer.Proofs.Alphabet.Entries
import Mathlib.Algebra.Ring.Int.Defs
import Mathlib.Data.List.Infix

/-!
# Brackets

The names `[` and `]` mark where a branch begins and where it ends.  A word is well nested if it
ends as many branches as it begins, and never ends one that it has not begun.  Words of names and
words of the symbols that the names mean are well nested alike.
-/

namespace Lindenmayer

/-! ### Depth -/

section

variable {α : Type} {turn : α → Int}

/-- How much deeper a word ends than it begins, where `turn` says how much deeper a member leads. -/
def depth (turn : α → Int) (xs : List α) : Int := (xs.map turn).sum

@[simp] theorem depth_nil : depth turn [] = 0 := rfl

@[simp] theorem depth_cons (x : α) (xs : List α) : depth turn (x :: xs) = turn x + depth turn xs :=
  List.sum_cons

@[simp] theorem depth_append (xs ys : List α) :
    depth turn (xs ++ ys) = depth turn xs + depth turn ys := by
  rw [depth, List.map_append, List.sum_append]
  rfl

/-- A word ends as deep as it begins, and is never less deep on the way. -/
structure WellNested (turn : α → Int) (xs : List α) : Prop where
  depth_eq_zero : depth turn xs = 0
  depth_nonneg : ∀ front, front <+: xs → 0 ≤ depth turn front

instance (turn : α → Int) (xs : List α) : Decidable (WellNested turn xs) :=
  decidable_of_iff (depth turn xs = 0 ∧ ∀ front ∈ xs.inits, 0 ≤ depth turn front)
    ⟨fun given => ⟨given.1, fun front initial =>
        given.2 front ((List.mem_inits front xs).mpr initial)⟩,
      fun nested => ⟨nested.depth_eq_zero, fun front initial =>
        nested.depth_nonneg front ((List.mem_inits front xs).mp initial)⟩⟩

/-- Nesting depends on nothing but where the members of a word lead. -/
theorem WellNested.congr {β : Type} {turn' : β → Int} {xs : List α} {ys : List β}
    (nested : WellNested turn xs) (equal : xs.map turn = ys.map turn') : WellNested turn' ys where
  depth_eq_zero := by
    rw [depth, ← equal]
    exact nested.depth_eq_zero
  depth_nonneg := by
    intro front initial
    have taken : depth turn' front = depth turn (xs.take front.length) := by
      rw [depth, depth, List.map_take, equal, ← List.map_take,
        ← List.prefix_iff_eq_take.mp initial]
    rw [taken]
    exact nested.depth_nonneg _ (List.take_prefix _ _)

theorem eq_nil_or_eq_singleton {x : α} {front : List α} (initial : front <+: [x]) :
    front = [] ∨ front = [x] := by
  rcases List.prefix_cons_iff.mp initial with rfl | ⟨rest, rfl, beginsNil⟩
  · exact Or.inl rfl
  · rw [List.prefix_nil.mp beginsNil]
    exact Or.inr rfl

theorem wellNested_singleton {x : α} (flat : turn x = 0) : WellNested turn [x] where
  depth_eq_zero := by rw [depth_cons, flat, depth_nil, Int.add_zero]
  depth_nonneg := by
    intro front initial
    rcases eq_nil_or_eq_singleton initial with rfl | rfl
    · exact Int.le_refl 0
    · rw [depth_cons, flat]
      exact Int.le_refl 0

/-! ### Words within a word -/

/-- Begun at a certain depth, a word never comes above ground. -/
def StaysBelow (turn : α → Int) (start : Int) (xs : List α) : Prop :=
  ∀ front, front <+: xs → 0 ≤ start + depth turn front

theorem StaysBelow.nonneg {start : Int} {xs : List α} (below : StaysBelow turn start xs) :
    0 ≤ start := by
  have here := below [] (List.nil_prefix)
  rwa [depth_nil, Int.add_zero] at here

/-- Where one word ends, the next begins. -/
theorem staysBelow_append {start : Int} {xs ys : List α} :
    StaysBelow turn start (xs ++ ys) ↔
      StaysBelow turn start xs ∧ StaysBelow turn (start + depth turn xs) ys := by
  constructor
  · intro below
    refine ⟨?_, ?_⟩
    · intro front initial
      exact below front (initial.trans (List.prefix_append xs ys))
    · intro front initial
      have whole := below (xs ++ front) ((List.prefix_append_right_inj xs).mpr initial)
      rwa [depth_append, ← Int.add_assoc] at whole
  · rintro ⟨first, second⟩ front initial
    rcases List.prefix_or_prefix_of_prefix initial (List.prefix_append xs ys) with
      inside | ⟨rest, rfl⟩
    · exact first front inside
    · have later := second rest ((List.prefix_append_right_inj xs).mp initial)
      rwa [depth_append, ← Int.add_assoc]

/-- A word that may take the place of another: it ends as deep, and does not come above ground where
the other does not. -/
structure NestsLike (turn : α → Int) (xs ys : List α) : Prop where
  depth_eq : depth turn ys = depth turn xs
  staysBelow : ∀ start, StaysBelow turn start xs → StaysBelow turn start ys

theorem NestsLike.refl (turn : α → Int) (xs : List α) : NestsLike turn xs xs :=
  ⟨rfl, fun _ below => below⟩

/-- Members that lead as deep may take each other's places. -/
theorem NestsLike.singleton {x y : α} (equal : turn y = turn x) : NestsLike turn [x] [y] where
  depth_eq := by rw [depth_cons, depth_cons, equal, depth_nil]
  staysBelow := by
    intro start below front initial
    rcases eq_nil_or_eq_singleton initial with rfl | rfl
    · exact below [] List.nil_prefix
    · rw [depth_cons, equal, ← depth_cons]
      exact below [x] (List.prefix_refl [x])

theorem NestsLike.append {xs ys xs' ys' : List α} (first : NestsLike turn xs ys)
    (second : NestsLike turn xs' ys') : NestsLike turn (xs ++ xs') (ys ++ ys') where
  depth_eq := by rw [depth_append, depth_append, first.depth_eq, second.depth_eq]
  staysBelow := by
    intro start below
    obtain ⟨here, there⟩ := staysBelow_append.mp below
    rw [staysBelow_append, first.depth_eq]
    exact ⟨first.staysBelow start here, second.staysBelow _ there⟩

/-- A word in the place of a well-nested one is well nested. -/
theorem NestsLike.wellNested {xs ys : List α} (like : NestsLike turn xs ys)
    (nested : WellNested turn xs) : WellNested turn ys where
  depth_eq_zero := like.depth_eq.trans nested.depth_eq_zero
  depth_nonneg := by
    intro front initial
    have ground : StaysBelow turn 0 xs := by
      intro front initial
      rw [Int.zero_add]
      exact nested.depth_nonneg front initial
    have below := like.staysBelow 0 ground front initial
    rwa [Int.zero_add] at below

/-- Well-nested words may take each other's places, at whatever depth. -/
theorem WellNested.nestsLike {xs ys : List α} (nested : WellNested turn xs)
    (nested' : WellNested turn ys) : NestsLike turn xs ys where
  depth_eq := nested'.depth_eq_zero.trans nested.depth_eq_zero.symm
  staysBelow := by
    intro start below front initial
    exact Int.add_nonneg below.nonneg (nested'.depth_nonneg front initial)

end

/-! ### Brackets among names -/

namespace Name

/-- The name that begins a branch. -/
def opening : Name := ⟨"["⟩

/-- The name that ends a branch. -/
def closing : Name := ⟨"]"⟩

def brackets : List Name := [opening, closing]

/-- One level down, one level up, or neither. -/
def turn (name : Name) : Int := if name = opening then 1 else if name = closing then -1 else 0

/-- Brackets are not levels of counters. -/
theorem counter?_of_mem_brackets {bracket : Name} (isBracket : bracket ∈ brackets) :
    bracket.counter? = none := by
  simp only [brackets, List.mem_cons, List.not_mem_nil, or_false] at isBracket
  rcases isBracket with rfl | rfl <;> decide +kernel

end Name

/-! ### Brackets among symbols -/

namespace Alphabet

/-- One level down at the symbol of the opening bracket, one level up at that of the closing one. -/
def turn (alphabet : Alphabet) (symbol : Symbol) : Int :=
  if alphabet.symbol? Name.opening = some symbol then 1
  else if alphabet.symbol? Name.closing = some symbol then -1
  else 0

theorem turn_eq_zero {alphabet : Alphabet} {symbol : Symbol}
    (apart : ∀ bracket ∈ Name.brackets, ¬alphabet.Means bracket symbol) :
    alphabet.turn symbol = 0 := by
  have opening : ¬alphabet.symbol? Name.opening = some symbol :=
    apart Name.opening (by simp [Name.brackets])
  have closing : ¬alphabet.symbol? Name.closing = some symbol :=
    apart Name.closing (by simp [Name.brackets])
  rw [turn, if_neg opening, if_neg closing]

/-- A symbol with a name that means no bracket is no bracket. -/
theorem turn_eq_zero_of_means {alphabet : Alphabet} {name : Name} {symbol : Symbol}
    (means : alphabet.Means name symbol)
    (apart : ∀ bracket ∈ Name.brackets, alphabet.symbol? name ≠ alphabet.symbol? bracket) :
    alphabet.turn symbol = 0 := by
  apply turn_eq_zero
  intro bracket isBracket also
  exact apart bracket isBracket (means.trans also.symm)

theorem turn_eq_turn {alphabet : Alphabet} {symbol : Symbol} {name : Name}
    (alike : ∀ bracket ∈ Name.brackets, alphabet.Means bracket symbol ↔ name = bracket) :
    name.turn = alphabet.turn symbol := by
  have opening : alphabet.symbol? Name.opening = some symbol ↔ name = Name.opening :=
    alike Name.opening (by simp [Name.brackets])
  have closing : alphabet.symbol? Name.closing = some symbol ↔ name = Name.closing :=
    alike Name.closing (by simp [Name.brackets])
  simp only [turn, Name.turn, opening, closing]

section

variable {grammar : Grammar} (fits : Fits grammar)
include fits

/-- A name that is not a level means the ordinary symbol that goes by it, and no other. -/
theorem means_iff_of_ordinary {name : Name} (ordinary : name.counter? = none) {symbol : Symbol} :
    (assemble grammar).Means name symbol ↔ ∃ index : Nat,
      (plainRegistry grammar).names[index]? = some name ∧ symbol = .plain index.toUInt16 := by
  rw [Means, symbol?_ordinary fits ordinary]
  exact (indexed_plainRegistry grammar).lookup name symbol

/-- A name leads where the symbol leads that it means. -/
theorem turn_of_means {name : Name} {symbol : Symbol}
    (means : (assemble grammar).Means name symbol) :
    name.turn = (assemble grammar).turn symbol := by
  apply turn_eq_turn
  intro bracket isBracket
  rw [means_iff_of_ordinary fits (Name.counter?_of_mem_brackets isBracket)]
  constructor
  · rintro ⟨index, registered, rfl⟩
    rcases symbol?_cases fits means with ⟨_, _, -, -, equal⟩ | ⟨index', registered', equal⟩
    · cases equal
    · have spelled := (plain_entry fits registered).2
      rw [equal, (plain_entry fits registered').2, Option.some.injEq] at spelled
      exact spelled
  · rintro rfl
    exact (means_iff_of_ordinary fits (Name.counter?_of_mem_brackets isBracket)).mp means

/-- A symbol of the alphabet leads where the name leads that it goes by. -/
theorem turn_of_shows {name : Name} {symbol : Symbol}
    (shown : (assemble grammar).Shows name symbol) :
    name.turn = (assemble grammar).turn symbol := by
  obtain ⟨⟨slot, placed⟩, spelled⟩ := shown
  apply turn_eq_turn
  intro bracket isBracket
  have ordinary := Name.counter?_of_mem_brackets isBracket
  rw [means_iff_of_ordinary fits ordinary]
  constructor
  · rintro ⟨index, registered, rfl⟩
    rw [(plain_entry fits registered).2, Option.some.injEq] at spelled
    exact spelled.symm
  · rintro rfl
    cases symbol with
    | plain index => exact ⟨index.toNat, spelled, by simp⟩
    | counter index level =>
      obtain ⟨-, _, found⟩ := (slot?_counter_iff fits).mp placed
      obtain ⟨base, _, allocated, equal, rfl⟩ := exists_counter_of_getElem? fits found
      rw [equal, (counter_entry fits allocated).2, Option.some.injEq] at spelled
      obtain ⟨highest, family, positive, -⟩ := allocated
      rw [← spelled, Name.counter?_atLevel (isBase_of_highestLevel? family) positive] at ordinary
      cases ordinary

/-- Levels of counters are not brackets. -/
theorem turn_counter (family : UInt16) (level : UInt8) :
    (assemble grammar).turn (.counter family level) = 0 := by
  apply turn_eq_zero
  intro bracket isBracket means
  obtain ⟨index, -, equal⟩ :=
    (means_iff_of_ordinary fits (Name.counter?_of_mem_brackets isBracket)).mp means
  cases equal

theorem turn_lowered (symbol : Symbol) :
    (assemble grammar).turn symbol.lowered = (assemble grammar).turn symbol := by
  cases symbol with
  | plain index => rfl
  | counter family level =>
    rw [turn_counter fits]
    exact turn_counter fits family _

/-- What names of a well-nested word mean is well nested. -/
theorem wellNested_of_means {names : List Name} {word : List Symbol}
    (means : List.Forall₂ (assemble grammar).Means names word)
    (nested : WellNested Name.turn names) : WellNested (assemble grammar).turn word :=
  nested.congr (map_eq_map_of_forall₂ (fun _ _ means => turn_of_means fits means) means)

end

end Alphabet

end Lindenmayer
