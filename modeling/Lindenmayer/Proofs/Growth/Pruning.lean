import Lindenmayer.Proofs.Growth.Agreement
import Lindenmayer.Proofs.LSystem.Pruning

/-!
# Runs of pruned grammars

Alternatives that cannot be drawn make no difference to a run: with them and without them, the same
words are grown by the same draws, step for step.
-/

namespace Lindenmayer.Growth

/-- Alternatives of unusable weight are inert.  If a grammar compiles and no two of its rules are
for one symbol, then the pruned grammar compiles too, to the same alphabet, with tables and without.
Runs over the two cannot be told apart, and their random sources stay in the same state.  Where
positions are kept in 32 bits, this is for rules of at most `2 ^ 32` alternatives: with these the
samplers are the same (`LSystem.Compiles.sampler_eq_ofPool_inWords`). -/
theorem unusable_alternatives_inert {start : Name} {grammar : Grammar} {flag : Bool}
    {compiled : LSystem} (accepted : LSystem.compile start grammar flag = .ok compiled)
    (apart : grammar.RulesApart compiled.alphabet) (tabulate : Bool) :
    ∃ system pruned, LSystem.compile start grammar tabulate = .ok system ∧
      LSystem.compile start grammar.pruned tabulate = .ok pruned ∧
      pruned.alphabet = system.alphabet ∧ pruned.start = system.start ∧
      ∀ settings seed, settings.check = .ok () → settings.seed = some seed → ∀ fresh fresh',
        ∃ growth growth', ofSystem system settings fresh = .ok growth ∧
          ofSystem pruned settings fresh' = .ok growth' ∧ InUnison growth growth' := by
  have given := LSystem.exists_compile_iff.mp ⟨_, accepted⟩
  obtain ⟨system, here⟩ := LSystem.exists_compile_of_accepted given tabulate
  obtain ⟨pruned, there⟩ := LSystem.exists_compile_of_accepted given.pruned tabulate
  obtain ⟨_, compiles⟩ := LSystem.exists_compiles here
  obtain ⟨_, compiles'⟩ := LSystem.exists_compiles there
  have apart' : grammar.RulesApart system.alphabet := by
    obtain ⟨_, first⟩ := LSystem.exists_compiles accepted
    rw [compiles.alphabet_eq, ← first.alphabet_eq]
    exact apart
  have agree := compiles.agreeOn_pruned compiles' apart'
  have names := grammar.sameNames_pruned
  refine ⟨system, pruned, here, there, (compiles.alphabet_eq_of_sameNames compiles' names).symm,
    agree.start_eq.symm, ?_⟩
  intro settings seed valid seeded fresh fresh'
  exact exists_inUnison agree valid seeded fresh fresh'

/-- A grammar with alternatives of all kinds of unusable weight, before, between and behind the
others.  The rule for `B` has no other ones. -/
def unusableWeights : Grammar :=
  Grammar.ofRules
    [⟨⟨"A"⟩, [⟨0, none, []⟩, ⟨1, none, [⟨"B"⟩, ⟨"A"⟩]⟩, ⟨-1, some ⟨"A"⟩, [⟨"A"⟩]⟩,
        ⟨0 / 0, none, [⟨"B"⟩]⟩, ⟨2, some ⟨"B"⟩, [⟨"x"⟩, ⟨"A"⟩]⟩, ⟨1 / 0, some ⟨"x"⟩, [⟨"x"⟩]⟩],
      by simp⟩,
      ⟨⟨"B"⟩, [⟨0, none, [⟨"x"⟩]⟩, ⟨-3, some ⟨"A"⟩, []⟩], by simp⟩]

theorem unusable_alternatives_inert_tabulated :
    ∃ system pruned growth growth',
      LSystem.compile ⟨"A"⟩ unusableWeights true = .ok system ∧
      LSystem.compile ⟨"A"⟩ unusableWeights.pruned true = .ok pruned ∧
      unusableWeights.RulesApart system.alphabet ∧ pruned.alphabet = system.alphabet ∧
      unusableWeights.pruned.rules.keys = [⟨"A"⟩] ∧
      threeLanes.check = .ok () ∧ threeLanes.seed = some 7 ∧
      ofSystem system threeLanes 0 = .ok growth ∧ ofSystem pruned threeLanes 1 = .ok growth' ∧
      InUnison growth growth' ∧
      ((start system threeLanes 0).growTo 6 0).names =
        [⟨"B"⟩, ⟨"B"⟩, ⟨"B"⟩, ⟨"x"⟩, ⟨"B"⟩, ⟨"B"⟩, ⟨"A"⟩] := by
  have evaluated : (LSystem.compile ⟨"A"⟩ unusableWeights true).toOption.map (fun system =>
      (system.alphabet.symbol? ⟨"A"⟩, system.alphabet.symbol? ⟨"B"⟩,
        ((start system threeLanes 0).growTo 6 0).names)) =
      some (some (.plain 0), some (.plain 1),
        [⟨"B"⟩, ⟨"B"⟩, ⟨"B"⟩, ⟨"x"⟩, ⟨"B"⟩, ⟨"B"⟩, ⟨"A"⟩]) := by decide +kernel
  obtain ⟨compiled, accepted, read⟩ := exists_ok_of_toOption_map evaluated
  simp only [Prod.mk.injEq] at read
  obtain ⟨isA, isB, names⟩ := read
  have keys : unusableWeights.rules.keys = [⟨"A"⟩, ⟨"B"⟩] := by decide +kernel
  have kept : unusableWeights.pruned.rules.keys = [⟨"A"⟩] := by decide +kernel
  have apart : unusableWeights.RulesApart compiled.alphabet := by
    intro key inside other inside' symbol means means'
    rw [← Std.ExtTreeMap.mem_keys, keys] at inside inside'
    rw [Alphabet.Means, ← means'] at means
    simp only [List.mem_cons, List.not_mem_nil, or_false] at inside inside'
    rcases inside with rfl | rfl <;> rcases inside' with rfl | rfl <;> simp_all
  obtain ⟨system, pruned, here, there, alphabets, -, runs⟩ :=
    unusable_alternatives_inert accepted apart true
  obtain rfl : compiled = system := Except.ok.inj (accepted.symm.trans here)
  have valid : threeLanes.check = .ok () := rfl
  obtain ⟨growth, growth', started, started', unison⟩ := runs threeLanes 7 valid rfl 0 1
  exact ⟨compiled, pruned, growth, growth', accepted, there, apart, alphabets, kept, valid, rfl,
    started, started', unison, names⟩

end Lindenmayer.Growth
