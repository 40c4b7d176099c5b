import Lindenmayer.Proofs.LSystem.Determinacy
import Lindenmayer.Random.WordList

/-!
# Draws and the words they take

What a draw returns and what it takes from the random source are both read off the choices that are
eligible behind a symbol.  None of them, and the symbol is copied; one, and it is taken without a
draw; more, and one of them is drawn.  Without tables each such draw takes one word, so that the
words taken by a pass are counted by looking at the word alone.
-/

namespace Lindenmayer

namespace WordSource

variable {G : Type} [WordSource G]

theorem advance_add (first second : Nat) (source : G) :
    advance (first + second) source = advance second (advance first source) := by
  induction first generalizing source with
  | zero => rw [Nat.zero_add, advance]
  | succ first ih => rw [Nat.succ_add, advance, advance, ih]

/-- The meter counts the words that are drawn. -/
@[simp] theorem used_advance (count : Nat) (metered : Metered G) :
    (advance count metered).used = metered.used + count := by
  induction count generalizing metered with
  | zero => rfl
  | succ count ih =>
    rw [advance, ih]
    exact Nat.succ_add_eq_add_succ metered.used count

end WordSource

/-! ### One draw -/

namespace Production

variable {G : Type} [WordSource G]

/-- Without tables, a draw takes one word if two choices or more are eligible, and no word
otherwise. -/
theorem snd_draw (choices : List Choice) (predecessor : Symbol) (source : G) :
    ((ofChoices choices false).draw predecessor source).2 =
      WordSource.advance (if 2 ≤ (Choice.eligible choices predecessor).length then 1 else 0)
        source := by
  rw [draw, sampler_ofChoices, ← Choice.length_usable_pool]
  exact Sampler.snd_sample_ofPool_false _ source

/-- A compiled rule is drawn from as its eligible choices ask for: those without a catalyst, or with
the symbol before as their catalyst, whose weight is finite and positive.  Nothing is drawn exactly
if there are none; otherwise the successors of one of them are drawn.  With at most one of them, the
random source is left as it is. -/
theorem draw_eligible {alphabet : Alphabet} {tabulate : Bool} {rule : Rule}
    {production : Production} (compiled : ofRule alphabet tabulate rule = .ok production)
    (predecessor : Symbol) (source : G) :
    List.Forall₂ (Choice.Compiles alphabet) rule.alternatives production.choices.toList ∧
    (∀ choice, choice ∈ Choice.eligible production.choices.toList predecessor ↔
      choice ∈ production.choices.toList ∧
        (choice.catalyst = none ∨ choice.catalyst = some predecessor) ∧
          choice.weight.isFinite = true ∧ 0 < choice.weight) ∧
    ((production.draw predecessor source).1 = none ↔
      Choice.eligible production.choices.toList predecessor = []) ∧
    (∀ choice, Choice.eligible production.choices.toList predecessor = [choice] →
      production.draw predecessor source = (some choice.successors, source)) ∧
    (Choice.eligible production.choices.toList predecessor ≠ [] →
      ∃ choice ∈ Choice.eligible production.choices.toList predecessor,
        (production.draw predecessor source).1 = some choice.successors) ∧
    ((Choice.eligible production.choices.toList predecessor).length ≤ 1 →
      (production.draw predecessor source).2 = source) := by
  obtain ⟨choices, related, rfl⟩ := ofRule_eq_ok_iff.mp compiled
  have listed : (ofChoices choices tabulate).choices.toList = choices := rfl
  rw [listed]
  have settled (few : (Choice.eligible choices predecessor).length ≤ 1) :=
    draw_of_length_eligible_le few tabulate source
  refine ⟨related, ?members, ?undrawn, ?single, ?several, fun few => by rw [settled few]⟩
  case members =>
    intro choice
    simp only [Choice.mem_eligible, Choice.isOpen_some_iff, Sampler.isUsable, Bool.and_eq_true,
      decide_eq_true_eq]
  case undrawn =>
    constructor
    · intro notDrawn
      rcases draw_cases choices tabulate predecessor source with
        ⟨noneEligible, -⟩ | ⟨choice, -, drawn⟩
      · exact noneEligible
      · rw [notDrawn] at drawn
        cases drawn
    · intro noneEligible
      rw [draw_of_eligible_eq_nil noneEligible]
  case single =>
    intro choice one
    rw [settled (by rw [one]; exact Nat.le_refl 1), one]
    rfl
  case several =>
    intro nonempty
    rcases draw_cases choices tabulate predecessor source with ⟨noneEligible, -⟩ | drawn
    · exact absurd noneEligible nonempty
    · exact drawn

/-- A rule with two alternatives that can be used behind `B`, one at the beginning of a word, and
none anywhere else. -/
def gated : Rule where
  predecessor := ⟨"A"⟩
  alternatives := [⟨0 / 0, none, [⟨"x"⟩]⟩, ⟨2, some ⟨"B"⟩, [⟨"B"⟩]⟩, ⟨1, some ⟨""⟩, []⟩,
    ⟨1, some ⟨"B"⟩, [⟨"x"⟩]⟩, ⟨-1, none, [⟨"A"⟩]⟩]
  alternatives_ne_nil := by simp

theorem draw_eligible_gated :
    ∃ alphabet production, Alphabet.build (Grammar.empty.insert gated) = .ok alphabet ∧
      ofRule alphabet true gated = .ok production ∧
      (Choice.eligible production.choices.toList (.plain 1)).map Choice.successors =
        [[.plain 1], [.plain 3]] ∧
      ∀ source : WordList,
        (∃ choice ∈ Choice.eligible production.choices.toList (.plain 1),
          (production.draw (.plain 1) source).1 = some choice.successors) ∧
        production.draw alphabet.boundary source = (some [], source) ∧
        production.draw (.plain 0) source = (none, source) := by
  have evaluated : (Alphabet.build (Grammar.empty.insert gated)).toOption.map (fun alphabet =>
      (ofRule alphabet true gated).toOption.map fun production =>
        [.plain 1, alphabet.boundary, .plain 0].map fun predecessor =>
          (Choice.eligible production.choices.toList predecessor).map Choice.successors) =
      some (some [[[.plain 1], [.plain 3]], [[]], []]) := by decide +kernel
  obtain ⟨alphabet, built, inner⟩ := exists_ok_of_toOption_map evaluated
  obtain ⟨production, compiled, read⟩ := exists_ok_of_toOption_map inner
  simp only [List.map_cons, List.map_nil, List.cons.injEq, and_true] at read
  obtain ⟨behind, beginning, elsewhere⟩ := read
  refine ⟨alphabet, production, built, compiled, behind, fun source => ⟨?_, ?_, ?_⟩⟩
  · refine (draw_eligible compiled (.plain 1) source).2.2.2.2.1 fun noneEligible => ?_
    rw [noneEligible] at behind
    cases behind
  · obtain ⟨choice, one, deletes⟩ := List.map_eq_singleton_iff.mp beginning
    rw [(draw_eligible compiled alphabet.boundary source).2.2.2.1 choice one, deletes]
  · have noneEligible := List.map_eq_nil_iff.mp elsewhere
    obtain ⟨-, -, notDrawn, -, -, kept⟩ := draw_eligible compiled (.plain 0) source
    exact Prod.ext (notDrawn.mpr noneEligible) (kept (by rw [noneEligible]; exact Nat.zero_le 1))

end Production

/-! ### One pass -/

namespace LSystem

/-- The choices that can be drawn for a symbol standing behind another one: those of the symbol one
level down. -/
def eligibleBehind (system : LSystem) (predecessor symbol : Symbol) : List Choice :=
  match system.production? symbol.lowered with
  | some production => Choice.eligible production.choices.toList predecessor
  | none => []

/-- The number of positions of a word at which one of several choices has to be drawn.  Each symbol
stands behind the one before it, and the first one behind the given symbol. -/
def choicePoints (system : LSystem) (predecessor : Symbol) (word : List Symbol) : Nat :=
  ((predecessor :: word).zip word).countP fun context =>
    2 ≤ (system.eligibleBehind context.1 context.2).length

theorem choicePoints_cons (system : LSystem) (predecessor symbol : Symbol) (rest : List Symbol) :
    system.choicePoints predecessor (symbol :: rest) =
      (if 2 ≤ (system.eligibleBehind predecessor symbol).length then 1 else 0) +
        system.choicePoints symbol rest := by
  simp only [choicePoints, List.zip_cons_cons, List.countP_cons, decide_eq_true_eq]
  exact Nat.add_comm _ _

section

variable {system : LSystem} (prepared : system.Prepared) {G : Type} [WordSource G]
include prepared

/-- Without an eligible choice a symbol is copied, and nothing is drawn for it. -/
theorem Prepared.replacement_of_eligibleBehind_eq_nil {predecessor symbol : Symbol}
    (noneEligible : system.eligibleBehind predecessor symbol = []) (source : G) :
    system.replacement predecessor symbol source = ([symbol.lowered], source) := by
  unfold eligibleBehind at noneEligible
  cases found : system.production? symbol.lowered with
  | none => simp only [replacement, found]
  | some production =>
    simp only [found] at noneEligible
    have drawn := Production.draw_of_eligible_eq_nil noneEligible system.tabulated source
    rw [← prepared _ _ found] at drawn
    simp only [replacement, found, drawn, Option.getD_none]

variable (untabulated : system.tabulated = false)
include untabulated

theorem Prepared.snd_replacement (predecessor symbol : Symbol) (source : G) :
    (system.replacement predecessor symbol source).2 =
      WordSource.advance
        (if 2 ≤ (system.eligibleBehind predecessor symbol).length then 1 else 0) source := by
  cases found : system.production? symbol.lowered with
  | none =>
    simp only [replacement, eligibleBehind, found]
    rfl
  | some production =>
    have drawn := Production.snd_draw production.choices.toList predecessor source
    rw [← untabulated, ← prepared _ _ found] at drawn
    simp only [replacement, eligibleBehind, found, drawn]

/-- Without tables, a word takes one random word for each position at which a choice is to be
drawn. -/
theorem Prepared.snd_replacementBehind (predecessor : Symbol) (word : List Symbol) (source : G) :
    (system.replacementBehind predecessor word source).2 =
      WordSource.advance (system.choicePoints predecessor word) source := by
  induction word generalizing predecessor source with
  | nil => rfl
  | cons symbol rest ih =>
    rw [choicePoints_cons, WordSource.advance_add,
      ← prepared.snd_replacement untabulated predecessor symbol source]
    exact ih symbol _

end

/-- The words that a pass takes from its random source can be counted beforehand.  A grammar
compiled without tables takes one word for each position of the word, symbols foreign to its
alphabet included, at which two or more choices are eligible behind the symbol before it.  Where
none is eligible, the symbol is written as it is looked up, and nothing is taken for it. -/
theorem derive_draws {start : Name} {grammar : Grammar} {system : LSystem}
    (compiled : compile start grammar false = .ok system) {G : Type} [WordSource G]
    (word : List Symbol) (output : Buffer) (source : G) :
    (system.derive word output source).2 =
      WordSource.advance (system.choicePoints system.alphabet.boundary word) source ∧
    (∀ metered : Metered G, (system.derive word output metered).2.used =
      metered.used + system.choicePoints system.alphabet.boundary word) ∧
    ∀ front symbol back, word = front ++ symbol :: back →
      system.eligibleBehind (front.getLastD system.alphabet.boundary) symbol = [] →
        system.derive word output source =
          system.deriveBehind symbol back
            ((system.derive front output source).1.append [symbol.lowered])
            (system.derive front output source).2 := by
  obtain ⟨entries, compiles⟩ := exists_compiles compiled
  have prepared := compiles.prepared
  have taken : ∀ {G : Type} [WordSource G] (source : G), (system.derive word output source).2 =
      WordSource.advance (system.choicePoints system.alphabet.boundary word) source := by
    intro G _ source
    rw [derive, (system.deriveBehind_eq _ word output source).2]
    exact prepared.snd_replacementBehind compiles.tabulated _ word source
  refine ⟨taken source, fun metered => ?_, ?copied⟩
  · rw [taken metered, WordSource.used_advance]
  case copied =>
    rintro front symbol back rfl noneEligible
    rw [derive, deriveBehind_append, deriveBehind_cons, replaceSymbol,
      prepared.replacement_of_eligibleBehind_eq_nil noneEligible]
    rfl

/-- Seven symbols, of which the third and the last one leave a choice.  The fourth is foreign. -/
def gatedWord : List Symbol :=
  [.plain 0, .plain 1, .plain 0] ++ .counter 7 3 :: [.plain 0, .plain 1, .plain 0]

theorem derive_draws_gated :
    ∃ system, compile ⟨"A"⟩ (Grammar.empty.insert Production.gated) false = .ok system ∧
      system.choicePoints system.alphabet.boundary gatedWord = 2 ∧
      ∀ output : Buffer,
        (system.derive gatedWord output (WordList.mk [5, 6, 7])).2 = ⟨[7]⟩ ∧
        (∀ metered : Metered WordList,
          (system.derive gatedWord output metered).2.used = metered.used + 2) ∧
        ∀ source : WordList, system.derive gatedWord output source =
          system.deriveBehind (.counter 7 3) [.plain 0, .plain 1, .plain 0]
            ((system.derive [.plain 0, .plain 1, .plain 0] output source).1.append [.counter 7 2])
            (system.derive [.plain 0, .plain 1, .plain 0] output source).2 := by
  have evaluated : (compile ⟨"A"⟩ (Grammar.empty.insert Production.gated) false).toOption.map
      (fun system => (system.choicePoints system.alphabet.boundary gatedWord,
        (system.eligibleBehind (.plain 0) (.counter 7 3)).length)) = some (2, 0) := by
    decide +kernel
  obtain ⟨system, compiled, read⟩ := exists_ok_of_toOption_map evaluated
  obtain ⟨points, foreign⟩ := Prod.mk.inj read
  have drawn := fun output source => derive_draws compiled gatedWord output (G := WordList) source
  refine ⟨system, compiled, points, fun output => ⟨?_, fun metered => ?_, fun source => ?_⟩⟩
  · rw [(drawn output _).1, points]
    rfl
  · rw [(drawn output metered.source).2.1 metered, points]
  · exact (drawn output source).2.2 _ _ _ rfl (List.eq_nil_of_length_eq_zero foreign)

end LSystem

end Lindenmayer
