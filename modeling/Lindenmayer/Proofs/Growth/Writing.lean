import Lindenmayer.Proofs.Growth.Closure
import Lindenmayer.Proofs.LSystem.Listing

/-!
# Generations in writing

Rules may be read for predecessors of any spelling, the empty one and those with blanks included.
But successors are read as fields of a text, and a counter that is stepped down changes only its
digits.  So if the start name is a field too, then all names of a generation are, and the generation
can be read back from its names with blanks between them.
-/

namespace Lindenmayer

/-- A symbol of the alphabet whose name is a field of a text. -/
def Alphabet.IsLegible (alphabet : Alphabet) (symbol : Symbol) : Prop :=
  ∃ name, alphabet.Shows name symbol ∧ Text.IsField name.chars

/-- What is below a legible counter is legible. -/
theorem Alphabet.IsLegible.lowered {grammar : Grammar} (fits : Fits grammar) {symbol : Symbol}
    (legible : (assemble grammar).IsLegible symbol) :
    (assemble grammar).IsLegible symbol.lowered := by
  cases symbol with
  | plain index => exact legible
  | counter index level =>
    obtain ⟨name, ⟨⟨slot, placed⟩, spelled⟩, isField⟩ := legible
    obtain ⟨base, registered, spelling⟩ := name?_counter_of_slot? fits placed
    obtain rfl : name = base.atLevel level := Option.some.inj (spelled.symm.trans spelling)
    have unbroken : ∀ c ∈ base.chars, Text.isBlank c = false := by
      rw [Name.chars_atLevel] at isField
      exact fun c member => isField.2 c (List.mem_append_left _ member)
    obtain ⟨lower, below⟩ := slot?_lowered placed
    obtain ⟨base', registered', spelling'⟩ := name?_counter_of_slot? fits below
    obtain rfl : base = base' := Option.some.inj (registered.symm.trans registered')
    exact ⟨_, ⟨⟨lower, below⟩, spelling'⟩, Name.isField_atLevel unbroken _⟩

namespace LSystem

section

variable {start : Name} {grammar : Grammar} {tabulate : Bool} {system : LSystem}
  {entries : List (Symbol × Production)}
  (compiles : Compiles start grammar tabulate system entries)
  (constants : Alphabet.OrdinaryConstants grammar)
include compiles constants

/-- A field means a legible symbol, even if it is another spelling of a level. -/
theorem Compiles.isLegible_of_means {name : Name} {symbol : Symbol}
    (isField : Text.IsField name.chars) (means : system.alphabet.Means name symbol) :
    system.alphabet.IsLegible symbol := by
  have spelled := compiles.name?_of_means constants means
  rw [compiles.alphabet_eq] at means spelled ⊢
  exact ⟨name.canonical, ⟨Alphabet.slot?_of_symbol? compiles.fits means, spelled⟩,
    Name.isField_canonical isField⟩

variable (wellFormed : ∀ (key : Name) (rule : Rule), grammar.rules[key]? = some rule →
  ∀ alternative ∈ rule.alternatives, alternative.WellFormed)
include wellFormed

/-- What replaces a legible symbol is legible. -/
theorem Compiles.isLegible_of_replaces {predecessor symbol : Symbol} {word : List Symbol}
    (legible : system.alphabet.IsLegible symbol)
    (replaces : system.Replaces predecessor symbol word) :
    ∀ other ∈ word, system.alphabet.IsLegible other := by
  intro other member
  cases replaces with
  | draw found eligible =>
    obtain ⟨⟨key, rule⟩, listed, -, alternative, given, compiled⟩ :=
      compiles.exists_alternative found (Choice.mem_eligible.mp eligible).1
    obtain ⟨name, inside, means⟩ := exists_left_of_forall₂ compiled.successors member
    have stored := Std.ExtTreeMap.mem_toList_iff_getElem?_eq_some.mp listed
    have writable := (wellFormed key rule stored alternative given).names name
      (List.mem_append_right _ inside)
    exact compiles.isLegible_of_means constants writable.field means
  | copy =>
    rw [List.mem_singleton.mp member]
    rw [compiles.alphabet_eq] at legible ⊢
    exact legible.lowered compiles.fits

/-- Whatever is derived from a start symbol with a field for a name is legible. -/
theorem Compiles.isLegible_of_derivesIn (isField : Text.IsField start.chars) {count : Nat}
    {word : List Symbol} (derives : system.DerivesIn [system.start] count word) :
    ∀ symbol ∈ word, system.alphabet.IsLegible symbol := by
  refine derives.induction (motive := fun word =>
    ∀ symbol ∈ word, system.alphabet.IsLegible symbol) ?keeps ?start
  case keeps =>
    intro word next holds passed
    exact passed.forall_mem (compiles.isLegible_of_replaces constants wellFormed) holds
  case start =>
    intro symbol member
    rw [List.mem_singleton.mp member]
    exact compiles.isLegible_of_means constants isField compiles.start

end

end LSystem

namespace Growth

/-- The names of the current generation in writing, with a separator of its own in each place. -/
def writing (growth : Growth) (separator : Nat → List Char) : String :=
  String.ofList (Text.joinWith separator (growth.names.map Name.chars))

/-- A generation survives being written out and read back.  Grown by a grammar that was read, from a
start name that is not empty and holds no blanks, every generation comes back from its names with
any blanks between them. -/
theorem encode_writing {rules : List (Name × String)} {grammar : Grammar}
    (read : Grammar.parse rules = .ok grammar) {start : Name} (isField : Text.IsField start.chars)
    {tabulate : Bool} {system : LSystem}
    (compiled : LSystem.compile start grammar tabulate = .ok system) {settings : Settings}
    {growth : Growth} (reached : Reachable system settings growth)
    {separator : Nat → List Char} (nonempty : ∀ place, separator place ≠ [])
    (blank : ∀ place, ∀ c ∈ separator place, Text.isBlank c = true) :
    Name.parseAll (growth.writing separator) = growth.names ∧
      system.alphabet.encode (Name.parseAll (growth.writing separator)) = .ok growth.word := by
  obtain ⟨_, compiles⟩ := LSystem.exists_compiles compiled
  have constants := (Grammar.assembled_parse read).tidy.ordinaryConstants
  have legible := compiles.isLegible_of_derivesIn constants
    (fun _ _ => Grammar.wellFormed_of_parse read) isField (reached.derivesIn compiles.prepared)
  have shows := reached.shows compiles
  have fields : ∀ name ∈ growth.names, Text.IsField name.chars := by
    intro name member
    obtain ⟨symbol, inside, shown⟩ := exists_right_of_forall₂ shows member
    obtain ⟨other, shown', isField⟩ := legible symbol inside
    obtain rfl : name = other := Option.some.inj (shown.spelled.symm.trans shown'.spelled)
    exact isField
  have names : Name.parseAll (growth.writing separator) = growth.names := by
    have isFields : ∀ field ∈ growth.names.map Name.chars, Text.IsField field := by
      intro field member
      obtain ⟨name, listed, rfl⟩ := List.mem_map.mp member
      exact fields name listed
    rw [Name.parseAll, writing, String.toList_ofList,
      Text.fields_joinWith nonempty blank isFields, List.map_map]
    simp [Function.comp_def]
  refine ⟨names, ?_⟩
  rw [names, Alphabet.encode_eq_ok_iff]
  rw [compiles.alphabet_eq] at shows ⊢
  exact shows.imp fun _ _ => Alphabet.Shows.means compiles.fits constants

/-- Separators of two kinds in turn: an em space with a line break, and a tab. -/
def alternating (place : Nat) : List Char :=
  if place % 2 = 0 then ['\u2003', '\n'] else ['\t']

theorem alternating_ne_nil (place : Nat) : alternating place ≠ [] := by
  unfold alternating
  split <;> simp

theorem isBlank_of_mem_alternating (place : Nat) :
    ∀ c ∈ alternating place, Text.isBlank c = true := by
  unfold alternating
  split
  · exact List.forall_mem_cons.mpr ⟨by decide, List.forall_mem_singleton.mpr (by decide)⟩
  · exact List.forall_mem_singleton.mpr (by decide)

/-- Rules for a name with a blank and for the empty name, and levels that are respelled and stepped
down. -/
theorem encode_writing_alternating :
    ∃ grammar system growth,
      Grammar.parse [(⟨"A"⟩, "1 A A S03 [; 2 *A ] x"), (⟨"S1"⟩, "1 *x ; 1 b"),
        (⟨"Two words"⟩, "1 A"), (⟨""⟩, "1 S2")] = .ok grammar ∧
      Text.IsField (Name.chars ⟨"A"⟩) ∧ LSystem.compile ⟨"A"⟩ grammar false = .ok system ∧
      Reachable system threeLanes growth ∧
      growth = run (fun _ => 0) [.growTo 3] (start system threeLanes 0) ∧
      growth.names = ["A", "A", "S3", "[", "A", "A", "S3", "[", "S2", "[", "A", "A", "S3", "[",
        "]", "x", "S2", "[", "b", "["].map Name.mk ∧
      (∀ place, alternating place ≠ []) ∧
      (∀ place, ∀ c ∈ alternating place, Text.isBlank c = true) ∧
      system.alphabet.encode (Name.parseAll (growth.writing alternating)) = .ok growth.word := by
  have evaluated : (Grammar.parse [(⟨"A"⟩, "1 A A S03 [; 2 *A ] x"), (⟨"S1"⟩, "1 *x ; 1 b"),
      (⟨"Two words"⟩, "1 A"), (⟨""⟩, "1 S2")]).toOption.map (fun grammar =>
        (LSystem.compile ⟨"A"⟩ grammar false).toOption.map fun system =>
          (run (fun _ => 0) [.growTo 3] (start system threeLanes 0)).names) =
      some (some (["A", "A", "S3", "[", "A", "A", "S3", "[", "S2", "[", "A", "A", "S3", "[",
        "]", "x", "S2", "[", "b", "["].map Name.mk)) := by decide +kernel
  obtain ⟨grammar, read, grown⟩ := exists_ok_of_toOption_map evaluated
  obtain ⟨system, compiled, names⟩ := exists_ok_of_toOption_map grown
  have spelled : Name.chars ⟨"A"⟩ = ['A'] := by decide
  have isField : Text.IsField (Name.chars ⟨"A"⟩) := by
    rw [spelled]
    exact ⟨List.cons_ne_nil _ _, List.forall_mem_singleton.mpr (by decide)⟩
  have reached := reachable_threeLanes system (fun _ => 0) [.growTo 3]
  have back := encode_writing read isField compiled reached alternating_ne_nil
    isBlank_of_mem_alternating
  exact ⟨grammar, system, _, read, isField, compiled, reached, rfl, names, alternating_ne_nil,
    isBlank_of_mem_alternating, back.2⟩

end Growth

end Lindenmayer
