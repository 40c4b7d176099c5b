import Lindenmayer.Proofs.Growth.Derivations
import Mathlib.Logic.Function.Iterate

/-!
# Deterministic growth

Where a grammar leaves nothing to the context and nothing to chance, every symbol has one image, and
a pass over a word is the homomorphism that puts the images of its symbols together.  The
generations of a run are then the iterates of this homomorphism, however the run is seeded and
whatever the settings say about lanes, thresholds, priming, capacities and tables.
-/

namespace Lindenmayer

/-- No alternative needs a catalyst, and no rule has two alternatives of usable weight. -/
structure Grammar.Deterministic (grammar : Grammar) : Prop where
  contextFree : ∀ rule ∈ grammar.rules.toList, ∀ alternative ∈ rule.2.alternatives,
    alternative.catalyst = none
  countP_le_one : ∀ rule ∈ grammar.rules.toList,
    (rule.2.alternatives.countP fun alternative => Sampler.isUsable alternative.weight) ≤ 1

instance (grammar : Grammar) : Decidable grammar.Deterministic :=
  decidable_of_iff
    ((∀ rule ∈ grammar.rules.toList, ∀ alternative ∈ rule.2.alternatives,
        alternative.catalyst = none) ∧
      ∀ rule ∈ grammar.rules.toList,
        (rule.2.alternatives.countP fun alternative => Sampler.isUsable alternative.weight) ≤ 1)
    ⟨fun given => ⟨given.1, given.2⟩,
      fun deterministic => ⟨deterministic.contextFree, deterministic.countP_le_one⟩⟩

/-- The first choice of usable weight. -/
def Production.usableChoice? (production : Production) : Option Choice :=
  production.choices.toList.find? fun choice => Sampler.isUsable choice.weight

namespace LSystem

/-- The image of a symbol: one level down, the successors of the choice of usable weight if there is
one, and otherwise the symbol itself. -/
def image (system : LSystem) (symbol : Symbol) : List Symbol :=
  ((system.production? symbol.lowered).bind Production.usableChoice?).elim [symbol.lowered]
    Choice.successors

/-- The homomorphism of words that maps each symbol to its image. -/
def mapImages (system : LSystem) (word : List Symbol) : List Symbol := word.flatMap system.image

/-! ### Images -/

/-- Of a list with at most one element of a kind, the elements of that kind are the first one. -/
theorem filter_eq_toList_find? {α : Type} {test : α → Bool} {xs : List α}
    (few : xs.countP test ≤ 1) : xs.filter test = (xs.find? test).toList := by
  rw [List.countP_eq_length_filter] at few
  rw [← List.head?_filter]
  cases kept : xs.filter test with
  | nil => rfl
  | cons x others =>
    rw [kept, List.length_cons] at few
    have noOthers : others = [] := List.eq_nil_of_length_eq_zero (by omega)
    rw [noOthers]
    rfl

section

variable {start : Name} {grammar : Grammar} {tabulate : Bool} {system : LSystem}
  {entries : List (Symbol × Production)}
  (compiles : Compiles start grammar tabulate system entries)
  (deterministic : grammar.Deterministic)
include compiles deterministic

theorem Compiles.isOpen_of_deterministic {symbol : Symbol} {production : Production}
    (found : system.production? symbol = some production) {choice : Choice}
    (member : choice ∈ production.choices.toList) (catalyst : Option Symbol) :
    choice.isOpen catalyst = true := by
  obtain ⟨rule, listed, -, alternative, given, compiled⟩ :=
    compiles.exists_alternative found member
  have unconditional := compiled.catalyst
  rw [deterministic.contextFree rule listed alternative given] at unconditional
  cases meant : choice.catalyst with
  | none => simp [Choice.isOpen, meant]
  | some other =>
    rw [meant] at unconditional
    cases unconditional

theorem Compiles.countP_choices_le_one {symbol : Symbol} {production : Production}
    (found : system.production? symbol = some production) :
    (production.choices.toList.countP fun choice => Sampler.isUsable choice.weight) ≤ 1 := by
  obtain ⟨rule, listed, -, choices, related, rfl⟩ := compiles.production?_eq_some found
  have weights : rule.2.alternatives.map Alternative.weight = choices.map Choice.weight :=
    map_eq_map_of_forall₂ (fun _ _ compiled => compiled.weight.symm) related
  calc choices.countP (fun choice => Sampler.isUsable choice.weight)
      = (choices.map Choice.weight).countP Sampler.isUsable := by
        rw [List.countP_map]
        rfl
    _ = rule.2.alternatives.countP fun alternative => Sampler.isUsable alternative.weight := by
        rw [← weights, List.countP_map]
        rfl
    _ ≤ 1 := deterministic.countP_le_one rule listed

/-- A production has at most one choice that can be drawn, and the same one behind whatever
symbol. -/
theorem Compiles.eligible_eq {symbol : Symbol} {production : Production}
    (found : system.production? symbol = some production) (predecessor : Symbol) :
    Choice.eligible production.choices.toList predecessor =
      production.usableChoice?.toList := by
  rw [Production.usableChoice?,
    ← filter_eq_toList_find? (compiles.countP_choices_le_one deterministic found)]
  apply List.filter_congr
  intro choice member
  rw [compiles.isOpen_of_deterministic deterministic found member, Bool.true_and]

/-- Whatever replaces a symbol is its image. -/
theorem Compiles.eq_image_of_replaces {predecessor symbol : Symbol} {word : List Symbol}
    (replaces : system.Replaces predecessor symbol word) : word = system.image symbol := by
  cases replaces with
  | draw found eligible =>
    rw [compiles.eligible_eq deterministic found, Option.mem_toList] at eligible
    simp [image, found, Option.mem_def.mp eligible]
  | copy noneEligible =>
    cases found : system.production? symbol.lowered with
    | none => simp [image, found]
    | some production =>
      have noChoice := noneEligible production found
      rw [compiles.eligible_eq deterministic found, Option.toList_eq_nil_iff] at noChoice
      simp [image, found, noChoice]

/-- A pass puts the images of the symbols together. -/
theorem Compiles.eq_mapImages_of_derives {word next : List Symbol}
    (derives : system.Derives word next) : next = system.mapImages word := by
  induction derives with
  | nil => rfl
  | cons predecessor replaces _ ih =>
    rw [mapImages, List.flatMap_cons, ← mapImages, ← ih,
      compiles.eq_image_of_replaces deterministic replaces]

theorem Compiles.eq_iterate_of_derivesIn {origin word : List Symbol} {count : Nat}
    (derives : system.DerivesIn origin count word) :
    word = system.mapImages^[count] origin := by
  induction derives with
  | refl => rfl
  | step _ derives ih =>
    rw [Function.iterate_succ_apply', ← ih]
    exact compiles.eq_mapImages_of_derives deterministic derives

end

end LSystem

/-! ### Steps -/

namespace Growth

/-- The number of steps since the last restart, once an operation is performed. -/
def Operation.stepsAfter (steps : Nat) : Operation → Nat
  | .step => steps + 1
  | .grow count => steps + count
  | .growTo count => count
  | .restart | .fork => 0

/-- The number of steps since the last restart at the end of a history. -/
def stepsTaken (history : List Operation) : Nat := history.foldl Operation.stepsAfter 0

theorem Sound.steps_perform {growth : Growth} (sound : growth.Sound) (fresh : UInt64)
    (operation : Operation) :
    (growth.perform fresh operation).1.steps = operation.stepsAfter growth.steps := by
  have outline := congrArg Outline.steps (sound.outline_perform fresh operation)
  cases operation with
  | step | grow | restart | fork => exact outline
  | growTo count => exact outline.trans (Outline.steps_growTo sound.priming_le)

theorem Sound.steps_run {growth : Growth} (sound : growth.Sound) (fresh : Nat → UInt64)
    (history : List Operation) :
    (run fresh history growth).steps = history.foldl Operation.stepsAfter growth.steps := by
  induction history generalizing fresh growth with
  | nil => rfl
  | cons operation rest ih =>
    rw [run, ih (sound.perform (fresh 0) operation), sound.steps_perform, List.foldl_cons]

/-- The lanes of a run of a deterministic grammar do not show.  After any history its generation is
the start symbol to which the homomorphism of images has been applied once for each step since the
last restart.  Where positions are kept in 32 bits, this is for rules of at most `2 ^ 32`
alternatives: with these the samplers are the same
(`LSystem.Compiles.sampler_eq_ofPool_inWords`). -/
theorem run_word_eq_iterate {start : Name} {grammar : Grammar} {tabulate : Bool}
    {system : LSystem} (compiled : LSystem.compile start grammar tabulate = .ok system)
    (deterministic : grammar.Deterministic) {settings : Settings} {first : UInt64} {new : Growth}
    (started : ofSystem system settings first = .ok new) (fresh : Nat → UInt64)
    (history : List Operation) :
    (run fresh history new).word =
        system.mapImages^[stepsTaken history] [system.start] ∧
      (run fresh history new).steps = stepsTaken history := by
  obtain ⟨entries, compiles⟩ := LSystem.exists_compiles compiled
  have reached : Reachable system settings (run fresh history new) :=
    ⟨first, new, fresh, history, started, rfl⟩
  obtain ⟨valid, rfl⟩ := ofSystem_eq_ok_iff.mp started
  have steps : (run fresh history (Growth.start system settings first)).steps =
      stepsTaken history := (sound_start system valid first).steps_run fresh history
  refine ⟨?_, steps⟩
  rw [← steps]
  exact compiles.eq_iterate_of_derivesIn deterministic (reached.derivesIn compiles.prepared)

/-- Filaments of algae, with a spore that drops at the step after it appears and alternatives that
are never drawn. -/
def algae : Grammar :=
  Grammar.ofRules
    [⟨⟨"A"⟩, [⟨0, none, [⟨"x"⟩]⟩, ⟨3, none, [⟨"A"⟩, ⟨"B"⟩]⟩, ⟨-1, none, []⟩], by simp⟩,
      ⟨⟨"B"⟩, [⟨2, none, [⟨"A"⟩, ⟨"S2"⟩]⟩], by simp⟩,
      ⟨⟨"S1"⟩, [⟨1, none, []⟩], by simp⟩]

theorem deterministic_algae : algae.Deterministic := by decide +kernel

/-- Five steps of algae over three lanes, the last three of them after a restart that primes. -/
theorem run_word_eq_iterate_algae :
    algae.Deterministic ∧
    ∃ system new, LSystem.compile ⟨"A"⟩ algae true = .ok system ∧
      ofSystem system threeLanes 0 = .ok new ∧
      (run (fun _ => 5) [.grow 1, .growTo 3, .step, .grow 1] new).steps = 5 ∧
      system.alphabet.decode (run (fun _ => 5) [.grow 1, .growTo 3, .step, .grow 1] new).word =
        ["A", "B", "A", "S2", "A", "B", "A", "B", "A", "S2", "A", "B", "A", "S2", "A",
          "B"].map Name.mk := by
  have evaluated : (LSystem.compile ⟨"A"⟩ algae true).toOption.map (fun system =>
      system.alphabet.decode (system.mapImages^[5] [system.start])) =
        some (["A", "B", "A", "S2", "A", "B", "A", "B", "A", "S2", "A", "B", "A", "S2", "A",
          "B"].map Name.mk) := by
    decide +kernel
  obtain ⟨system, compiled, images⟩ := exists_ok_of_toOption_map evaluated
  have started : ofSystem system threeLanes 0 = .ok (start system threeLanes 0) := rfl
  obtain ⟨word, steps⟩ := run_word_eq_iterate compiled deterministic_algae started
    (fun _ => 5) [.grow 1, .growTo 3, .step, .grow 1]
  refine ⟨deterministic_algae, system, _, compiled, started, steps, ?_⟩
  rw [word]
  exact images

end Growth

end Lindenmayer
