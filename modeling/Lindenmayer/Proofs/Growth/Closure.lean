import Lindenmayer.Proofs.Alphabet.Entries
import Lindenmayer.Proofs.Growth.Derivations

/-!
# Generations stay within the alphabet

The start symbol, the successors of every choice, and whatever lies below a counter are symbols of
the alphabet.  So is every symbol of a generation, then, in whichever lane it stands, and decoding a
generation never has to fall back on the name of the boundary or of a base.
-/

namespace Lindenmayer

namespace LSystem

/-- What replaces a symbol of the alphabet is made of symbols of the alphabet. -/
theorem Compiles.slot?_of_replaces {start : Name} {grammar : Grammar} {tabulate : Bool}
    {system : LSystem} {entries : List (Symbol × Production)}
    (compiles : Compiles start grammar tabulate system entries) {predecessor symbol : Symbol}
    {word : List Symbol} (placed : ∃ slot, system.alphabet.slot? symbol = some slot)
    (replaces : system.Replaces predecessor symbol word) :
    ∀ other ∈ word, ∃ slot, system.alphabet.slot? other = some slot := by
  intro other member
  cases replaces with
  | draw found eligible =>
    obtain ⟨-, -, -, alternative, -, compiled⟩ :=
      compiles.exists_alternative found (Choice.mem_eligible.mp eligible).1
    obtain ⟨name, -, means⟩ := exists_left_of_forall₂ compiled.successors member
    rw [compiles.alphabet_eq] at means ⊢
    exact Alphabet.slot?_of_symbol? compiles.fits means
  | copy =>
    obtain ⟨slot, placed⟩ := placed
    rw [List.mem_singleton.mp member]
    exact Alphabet.slot?_lowered placed

/-- Whatever is derived from the start symbol is made of symbols of the alphabet. -/
theorem Compiles.slot?_of_derivesIn {start : Name} {grammar : Grammar} {tabulate : Bool}
    {system : LSystem} {entries : List (Symbol × Production)}
    (compiles : Compiles start grammar tabulate system entries) {count : Nat}
    {word : List Symbol} (derives : system.DerivesIn [system.start] count word) :
    ∀ symbol ∈ word, ∃ slot, system.alphabet.slot? symbol = some slot := by
  refine derives.induction (motive := fun word =>
    ∀ symbol ∈ word, ∃ slot, system.alphabet.slot? symbol = some slot) ?keeps ?start
  case keeps =>
    intro word next holds passed
    exact passed.forall_mem compiles.slot?_of_replaces holds
  case start =>
    intro symbol member
    have means := compiles.start
    rw [List.mem_singleton.mp member]
    rw [compiles.alphabet_eq] at means ⊢
    exact Alphabet.slot?_of_symbol? compiles.fits means

end LSystem

namespace Growth

/-- The names of a reachable state are those of its symbols. -/
theorem Reachable.shows {start : Name} {grammar : Grammar} {tabulate : Bool} {system : LSystem}
    {entries : List (Symbol × Production)}
    (compiles : LSystem.Compiles start grammar tabulate system entries) {settings : Settings}
    {growth : Growth} (reached : Reachable system settings growth) :
    List.Forall₂ system.alphabet.Shows growth.names growth.word := by
  have placed := compiles.slot?_of_derivesIn (reached.derivesIn compiles.prepared)
  rw [names, reached.system_eq]
  rw [compiles.alphabet_eq] at placed ⊢
  exact Alphabet.shows_decode compiles.fits placed

/-- Generations never leave the alphabet.  In every reachable state the lanes hold symbols with a
slot and a name, every name of the generation is the name of its symbol and not a substitute, and
counters go by the name of their base followed by their level. -/
theorem generation_within_alphabet {start : Name} {grammar : Grammar} {tabulate : Bool}
    {system : LSystem} (compiled : LSystem.compile start grammar tabulate = .ok system)
    {settings : Settings} {growth : Growth} (reached : Reachable system settings growth) :
    (∀ lane ∈ growth.pool.lanes, ∀ symbol ∈ lane.word,
      (∃ slot, system.alphabet.slot? symbol = some slot) ∧
        ∃ name, system.alphabet.name? symbol = some name) ∧
    growth.names.map some = growth.word.map system.alphabet.name? ∧
    ∀ index level, Symbol.counter index level ∈ growth.word →
      ∃ base, system.alphabet.names[index.toNat]? = some base ∧
        system.alphabet.name? (.counter index level) = some (base.atLevel level) := by
  obtain ⟨entries, compiles⟩ := LSystem.exists_compiles compiled
  have shows := reached.shows compiles
  refine ⟨?lanes, ?names, ?counters⟩
  case lanes =>
    intro lane held symbol member
    have inside : symbol ∈ growth.word := List.mem_flatMap.mpr ⟨lane, held, member⟩
    obtain ⟨name, -, shown⟩ := exists_left_of_forall₂ shows inside
    exact ⟨shown.placed, name, shown.spelled⟩
  case names => exact map_eq_map_of_forall₂ (fun _ _ shown => shown.spelled.symm) shows
  case counters =>
    intro index level member
    obtain ⟨_, -, shown⟩ := exists_left_of_forall₂ shows member
    obtain ⟨slot, found⟩ := shown.placed
    rw [compiles.alphabet_eq] at found ⊢
    exact Alphabet.name?_counter_of_slot? compiles.fits found

theorem generation_within_alphabet_branching :
    ∃ system growth, LSystem.compile ⟨"A"⟩ branching false = .ok system ∧
      Reachable system threeLanes growth ∧
      growth = run (fun _ => 0) [.step, .growTo 4] (start system threeLanes 0) ∧
      growth.word = [.plain 1, .plain 0, .plain 0, .counter 2 2, .plain 1, .plain 1, .plain 3,
        .plain 1] ∧
      (∀ lane ∈ growth.pool.lanes, ∀ symbol ∈ lane.word,
        ∃ slot, system.alphabet.slot? symbol = some slot) ∧
      growth.names.map some = growth.word.map system.alphabet.name? ∧
      ∃ base, system.alphabet.names[2]? = some base ∧
        system.alphabet.name? (.counter 2 2) = some (base.atLevel 2) := by
  have evaluated : (LSystem.compile ⟨"A"⟩ branching false).toOption.map (fun system =>
      (run (fun _ => 0) [.step, .growTo 4] (start system threeLanes 0)).word) =
        some [.plain 1, .plain 0, .plain 0, .counter 2 2, .plain 1, .plain 1, .plain 3,
          .plain 1] := by decide +kernel
  obtain ⟨system, compiled, word⟩ := exists_ok_of_toOption_map evaluated
  have reached := reachable_threeLanes system (fun _ => 0) [.step, .growTo 4]
  obtain ⟨placed, names, counters⟩ := generation_within_alphabet compiled reached
  refine ⟨system, _, compiled, reached, rfl, word, ?_, names, ?_⟩
  · intro lane held symbol member
    exact (placed lane held symbol member).1
  · refine counters 2 2 ?_
    rw [word]
    decide

end Growth

end Lindenmayer
