import Lindenmayer.Proofs.LSystem.RuleTable

/-!
# Comparing compiled grammars

Grammars that declare the same names have the same alphabet, whatever their rules are.  The
production of a symbol then depends on the rules stored under the names of this symbol alone.
-/

namespace Lindenmayer

/-- The grammars declare the same variables and the same constants. -/
structure Grammar.SameNames (a b : Grammar) : Prop where
  variableNames_eq : a.variableNames = b.variableNames
  constantNames_eq : a.constantNames = b.constantNames

theorem Grammar.SameNames.refl (grammar : Grammar) : grammar.SameNames grammar := ⟨rfl, rfl⟩

theorem Alphabet.assemble_eq_of_sameNames {a b : Grammar} (same : a.SameNames b) :
    assemble a = assemble b := by
  obtain ⟨variableNames, constantNames, rules⟩ := a
  obtain ⟨variableNames', constantNames', rules'⟩ := b
  obtain ⟨rfl, rfl⟩ := same
  rfl

/-- The last rule for a symbol is the last one in the other grammar too, if that has the same rules
for the symbol. -/
theorem Grammar.LastFor.congr {grammar grammar' : Grammar} {alphabet : Alphabet} {symbol : Symbol}
    {key : Name} {rule : Rule}
    (same : ∀ key, alphabet.Means key symbol → grammar.rules[key]? = grammar'.rules[key]?)
    (here : grammar.LastFor alphabet symbol key rule) :
    grammar'.LastFor alphabet symbol key rule where
  stored := by
    rw [← same key here.means]
    exact here.stored
  means := here.means
  last other inside means := by
    refine here.last other ?_ means
    rw [Std.ExtTreeMap.mem_iff_isSome_getElem?, same other means,
      ← Std.ExtTreeMap.mem_iff_isSome_getElem?]
    exact inside

namespace LSystem

variable {start : Name} {grammar grammar' : Grammar} {tabulate tabulate' : Bool}
  {system system' : LSystem}
  {entries entries' : List (Symbol × Production)}

/-- A rule becomes one production only. -/
theorem RuleCompiles.unique {alphabet : Alphabet} {rule : Name × Rule} {symbol : Symbol}
    {production production' : Production}
    (here : RuleCompiles alphabet tabulate rule (symbol, production))
    (there : RuleCompiles alphabet tabulate rule (symbol, production')) :
    production = production' := by
  have same := compileRule_eq_ok_iff.mpr there
  rw [compileRule_eq_ok_iff.mpr here] at same
  exact (Prod.mk.inj (Except.ok.inj same)).2

section

variable (compiles : Compiles start grammar tabulate system entries)
  (compiles' : Compiles start grammar' tabulate' system' entries')
include compiles compiles'

theorem Compiles.alphabet_eq_of_sameNames (same : grammar.SameNames grammar') :
    system.alphabet = system'.alphabet := by
  rw [compiles.alphabet_eq, compiles'.alphabet_eq, Alphabet.assemble_eq_of_sameNames same]

theorem Compiles.start_eq_of_sameNames (same : grammar.SameNames grammar') :
    system.start = system'.start := by
  have means := compiles.start
  rw [compiles.alphabet_eq_of_sameNames compiles' same] at means
  exact Option.some.inj (means.symm.trans compiles'.start)

end

section

variable (compiles : Compiles start grammar tabulate system entries)
  (compiles' : Compiles start grammar' tabulate system' entries')
include compiles compiles'

/-- A symbol has the same production in both systems, if the grammars have the same rules for it. -/
theorem Compiles.production?_congr (alphabets : system.alphabet = system'.alphabet)
    {symbol : Symbol} (same : ∀ key, system.alphabet.Means key symbol →
      grammar.rules[key]? = grammar'.rules[key]?) :
    system.production? symbol = system'.production? symbol := by
  cases found : system.production? symbol with
  | none =>
    cases found' : system'.production? symbol with
    | none => rfl
    | some production' =>
      obtain ⟨key, rule, here, -⟩ := compiles'.lastFor found'
      have means := here.means
      rw [← alphabets] at means
      have stored := here.stored
      rw [← same key means] at stored
      exact absurd means (compiles.production?_eq_none found (key, rule)
        (Std.ExtTreeMap.mem_toList_iff_getElem?_eq_some.mpr stored))
  | some production =>
    obtain ⟨key, rule, here, compiled⟩ := compiles.lastFor found
    have there : grammar'.LastFor system'.alphabet symbol key rule := by
      rw [← alphabets]
      exact here.congr same
    obtain ⟨symbol', production', means, found'⟩ := compiles'.exists_production there.stored
    obtain rfl : symbol' = symbol := Option.some.inj (means.symm.trans there.means)
    obtain ⟨key', rule', here', compiled'⟩ := compiles'.lastFor found'
    obtain rfl := here'.unique there
    obtain rfl := Option.some.inj (here'.stored.symm.trans there.stored)
    rw [← alphabets] at compiled'
    rw [found', compiled.unique compiled']

end

end LSystem

end Lindenmayer
