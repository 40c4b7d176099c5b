import Lindenmayer.Proofs.Alphabet.Brackets
import Lindenmayer.Proofs.Growth.Closure

/-!
# Branches

Rules that leave the brackets alone, and put only well-nested words in the place of other symbols,
grow well-nested generations.  A lane may hold a part of a branch only, cut off where the generation
was spread; it is the lanes together that are well nested.
-/

namespace Lindenmayer

namespace LSystem

/-- Neither the start symbol nor any symbol with a rule is a bracket, and all successors are well
nested. -/
structure KeepsBranches (system : LSystem) (start : Name) (grammar : Grammar) : Prop where
  start : ∀ bracket ∈ Name.brackets,
    system.alphabet.symbol? start ≠ system.alphabet.symbol? bracket
  keys : ∀ rule ∈ grammar.rules.toList, ∀ bracket ∈ Name.brackets,
    system.alphabet.symbol? rule.1 ≠ system.alphabet.symbol? bracket
  successors : ∀ rule ∈ grammar.rules.toList, ∀ alternative ∈ rule.2.alternatives,
    WellNested Name.turn alternative.successors

instance (system : LSystem) (start : Name) (grammar : Grammar) :
    Decidable (system.KeepsBranches start grammar) :=
  decidable_of_iff
    ((∀ bracket ∈ Name.brackets,
        system.alphabet.symbol? start ≠ system.alphabet.symbol? bracket) ∧
      (∀ rule ∈ grammar.rules.toList, ∀ bracket ∈ Name.brackets,
        system.alphabet.symbol? rule.1 ≠ system.alphabet.symbol? bracket) ∧
      ∀ rule ∈ grammar.rules.toList, ∀ alternative ∈ rule.2.alternatives,
        WellNested Name.turn alternative.successors)
    ⟨fun given => ⟨given.1, given.2.1, given.2.2⟩,
      fun branches => ⟨branches.start, branches.keys, branches.successors⟩⟩

section

variable {start : Name} {grammar : Grammar} {tabulate : Bool} {system : LSystem}
  {entries : List (Symbol × Production)}
  (compiles : Compiles start grammar tabulate system entries)
  (branches : system.KeepsBranches start grammar)
include compiles branches

/-- What replaces a symbol nests like it. -/
theorem Compiles.nestsLike_of_replaces {predecessor symbol : Symbol} {word : List Symbol}
    (replaces : system.Replaces predecessor symbol word) :
    NestsLike system.alphabet.turn [symbol] word := by
  have lowered : system.alphabet.turn symbol.lowered = system.alphabet.turn symbol := by
    rw [compiles.alphabet_eq]
    exact Alphabet.turn_lowered compiles.fits symbol
  cases replaces with
  | draw found eligible =>
    obtain ⟨rule, listed, means, alternative, given, compiled⟩ :=
      compiles.exists_alternative found (Choice.mem_eligible.mp eligible).1
    -- A symbol with a rule is no bracket, so it nests like every well-nested word.
    have flat := Alphabet.turn_eq_zero_of_means means (branches.keys rule listed)
    apply (wellNested_singleton (lowered.symm.trans flat)).nestsLike
    have successors := compiled.successors
    rw [compiles.alphabet_eq] at successors ⊢
    exact Alphabet.wellNested_of_means compiles.fits successors
      (branches.successors rule listed alternative given)
  | copy => exact .singleton lowered

/-- What a pass makes of a word nests like it. -/
theorem Compiles.nestsLike_of_derives {word next : List Symbol}
    (derives : system.Derives word next) : NestsLike system.alphabet.turn word next := by
  induction derives with
  | nil => exact .refl _ _
  | cons predecessor replaces _ ih =>
    rw [← List.singleton_append]
    exact (compiles.nestsLike_of_replaces branches replaces).append ih

theorem Compiles.wellNested_of_derivesIn {count : Nat} {word : List Symbol}
    (derives : system.DerivesIn [system.start] count word) :
    WellNested system.alphabet.turn word := by
  refine derives.induction (motive := WellNested system.alphabet.turn) ?keeps ?start
  case keeps =>
    intro word next nested passed
    exact (compiles.nestsLike_of_derives branches passed).wellNested nested
  case start =>
    exact wellNested_singleton (Alphabet.turn_eq_zero_of_means compiles.start branches.start)

end

end LSystem

namespace Growth

/-- Branches stay well nested.  If neither the start symbol nor any symbol with a rule is a bracket,
and all successors are well nested, then the generation of every reachable state is well nested, and
so are its names. -/
theorem generation_wellNested {start : Name} {grammar : Grammar} {tabulate : Bool}
    {system : LSystem} (compiled : LSystem.compile start grammar tabulate = .ok system)
    (branches : system.KeepsBranches start grammar) {settings : Settings} {growth : Growth}
    (reached : Reachable system settings growth) :
    WellNested system.alphabet.turn growth.word ∧ WellNested Name.turn growth.names := by
  obtain ⟨entries, compiles⟩ := LSystem.exists_compiles compiled
  have nested : WellNested system.alphabet.turn growth.word :=
    compiles.wellNested_of_derivesIn branches (reached.derivesIn compiles.prepared)
  refine ⟨nested, nested.congr ?_⟩
  have shows := reached.shows compiles
  rw [compiles.alphabet_eq] at shows ⊢
  have turns := map_eq_map_of_forall₂
    (fun _ _ shown => Alphabet.turn_of_shows compiles.fits shown) shows
  exact turns.symm

/-- A tip that grows on within a branch or along the stem, leaves that fall, and buds that open. -/
def plant : Grammar :=
  Grammar.ofRules
    [⟨⟨"A"⟩, [⟨2, none, [⟨"["⟩, ⟨"L"⟩, ⟨"A"⟩, ⟨"]"⟩, ⟨"S2"⟩]⟩, ⟨1, none, [⟨"u"⟩, ⟨"A"⟩]⟩], nofun⟩,
      ⟨⟨"L"⟩, [⟨1, none, []⟩], nofun⟩,
      ⟨⟨"S1"⟩, [⟨1, none, [⟨"["⟩, ⟨"x"⟩, ⟨"]"⟩]⟩], nofun⟩]

/-- The first lane ends two branches deeper than it begins, and the others lead back out. -/
theorem generation_wellNested_plant :
    ∃ system growth, LSystem.compile ⟨"A"⟩ plant false = .ok system ∧
      system.KeepsBranches ⟨"A"⟩ plant ∧ Reachable system threeLanes growth ∧
      growth = run (fun _ => 0) [.step, .growTo 3] (start system threeLanes 0) ∧
      growth.pool.lanes.map (fun lane => depth system.alphabet.turn lane.word) = [2, -1, -1] ∧
      WellNested system.alphabet.turn growth.word ∧ WellNested Name.turn growth.names := by
  have evaluated : (LSystem.compile ⟨"A"⟩ plant false).toOption.map (fun system =>
      (decide (system.KeepsBranches ⟨"A"⟩ plant),
        (run (fun _ => 0) [.step, .growTo 3] (start system threeLanes 0)).pool.lanes.map fun lane =>
          depth system.alphabet.turn lane.word)) = some (true, [2, -1, -1]) := by
    decide +kernel
  obtain ⟨system, compiled, read⟩ := exists_ok_of_toOption_map evaluated
  obtain ⟨checked, depths⟩ := Prod.mk.inj read
  have branches : system.KeepsBranches ⟨"A"⟩ plant := of_decide_eq_true checked
  have reached := reachable_threeLanes system (fun _ => 0) [.step, .growTo 3]
  obtain ⟨symbols, spelled⟩ := generation_wellNested compiled branches reached
  exact ⟨system, _, compiled, branches, reached, rfl, depths, symbols, spelled⟩

end Growth

end Lindenmayer
