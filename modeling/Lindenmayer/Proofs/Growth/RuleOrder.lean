import Lindenmayer.Proofs.Grammar.Collection
import Lindenmayer.Proofs.Growth.Agreement
import Lindenmayer.Proofs.Growth.Preparation

/-!
# Runs and the order of rules

The order in which the rules of a grammar are listed matters only between rules for one predecessor,
of which the last one counts.  Everything else about a grammar, the systems compiled from it and all
their seeded runs included, is the same for every order.
-/

namespace Lindenmayer.Growth

variable {settings : Settings} {seed : UInt64}

/-- The fresh seed at hand plays no part in the preparation of a seeded run. -/
theorem ofGrammar_eq_of_seeded (seeded : settings.seed = some seed) (start : Name)
    (grammar : Grammar) (fresh fresh' : UInt64) :
    ofGrammar start grammar settings fresh' = ofGrammar start grammar settings fresh := by
  have same (system : LSystem) :
      ofSystem system settings fresh' = ofSystem system settings fresh := by
    simp only [ofSystem, Growth.start, restart, seeded, Option.getD_some]
  simp only [ofGrammar, same]

/-- Nor does it play a part in what becomes of the run. -/
theorem inUnison_of_ofGrammar (seeded : settings.seed = some seed) {start : Name}
    {grammar : Grammar} {fresh : UInt64} {growth : Growth}
    (prepared : ofGrammar start grammar settings fresh = .ok growth) : InUnison growth growth := by
  cases valid : settings.check with
  | error fault =>
    rw [ofGrammar_of_check_error valid] at prepared
    cases prepared
  | ok =>
    rw [ofGrammar_of_check_ok valid] at prepared
    cases compiled : LSystem.compile start grammar settings.tabulate with
    | error error =>
      rw [compiled] at prepared
      cases prepared
    | ok system =>
      rw [compiled] at prepared
      cases prepared
      obtain ⟨_, compiles⟩ := LSystem.exists_compiles compiled
      obtain ⟨x, y, begun, begun', unison⟩ :=
        exists_inUnison compiles.prepared.agreeOn_self valid seeded fresh fresh
      obtain ⟨-, rfl⟩ := ofSystem_eq_ok_iff.mp begun
      obtain ⟨-, rfl⟩ := ofSystem_eq_ok_iff.mp begun'
      exact unison

/-- The grammar made of a list of rules stores the last rule for each predecessor, and declares by
their spelling the names that any of the rules mentions, replaced ones included.  So a permutation
that keeps rules for the same predecessor in order makes the same grammar, which compiles to the
same system or fails with the same error, and a seeded run of the one is a run of the other,
whatever is done to it.  What is read is the grammar made of the rules that are read, if an
alternative survives in every body, and otherwise the first body in which none survives is an
error. -/
theorem rule_order_immaterial :
    (∀ (rules : List Rule) (name : Name),
      (Grammar.ofRules rules).rules[name]? = (Rule.listFor rules name).getLast? ∧
      (name ∈ (Grammar.ofRules rules).variableNames ↔
        name.isVariable = true ∧ ∃ rule ∈ rules, name ∈ rule.references) ∧
      (name ∈ (Grammar.ofRules rules).constantNames ↔
        name.isVariable = false ∧ ∃ rule ∈ rules, name ∈ rule.references)) ∧
    (∀ rules rules' : List Rule, Rule.Reorders rules rules' →
      Grammar.ofRules rules' = Grammar.ofRules rules ∧
      (∀ start tabulate, LSystem.compile start (Grammar.ofRules rules') tabulate =
        LSystem.compile start (Grammar.ofRules rules) tabulate) ∧
      ∀ start settings seed, settings.seed = some seed → ∀ fresh fresh',
        ofGrammar start (Grammar.ofRules rules') settings fresh' =
          ofGrammar start (Grammar.ofRules rules) settings fresh ∧
        ∀ growth growth', ofGrammar start (Grammar.ofRules rules) settings fresh = .ok growth →
          ofGrammar start (Grammar.ofRules rules') settings fresh' = .ok growth' →
            InUnison growth growth') ∧
    (∀ entries : List (Name × String), (∀ entry ∈ entries, Alternative.parseAll entry.2 ≠ []) →
      ∃ rules, List.Forall₂ Rule.IsReadFrom entries rules ∧
        Grammar.parse entries = .ok (Grammar.ofRules rules)) ∧
    ∀ (entries : List (Name × String)) (entry : Name × String),
      IsFirst (fun entry => Alternative.parseAll entry.2 = []) entries entry →
        Grammar.parse entries = .error (.emptyRule entry.1) := by
  refine ⟨?contents, ?reordered, fun _ => Grammar.exists_parse_eq_ok,
    fun _ _ => Grammar.parse_eq_error⟩
  case contents =>
    intro rules name
    exact ⟨Grammar.getElem?_rules_ofRules rules name, Grammar.mem_variableNames_ofRules,
      Grammar.mem_constantNames_ofRules⟩
  case reordered =>
    intro rules rules' reorders
    have same := Grammar.ofRules_eq_of_reorders reorders
    refine ⟨same, fun start tabulate => by rw [same], ?_⟩
    intro start settings seed seeded fresh fresh'
    rw [same, ofGrammar_eq_of_seeded seeded start _ fresh fresh']
    refine ⟨rfl, fun growth growth' prepared prepared' => ?_⟩
    obtain rfl := Except.ok.inj (prepared.symm.trans prepared')
    exact inUnison_of_ofGrammar seeded prepared

/-- A rule for `A` that mentions a name of its own. -/
def replacedRule : Rule := ⟨⟨"A"⟩, [⟨1, none, [⟨"x"⟩]⟩], List.cons_ne_nil _ _⟩

/-- Another rule for `A`. -/
def replacingRule : Rule :=
  ⟨⟨"A"⟩, [⟨1, none, [⟨"B"⟩, ⟨"A"⟩]⟩, ⟨1, some ⟨"B"⟩, [⟨"A"⟩, ⟨"S2"⟩]⟩], List.cons_ne_nil _ _⟩

/-- A rule for `B`. -/
def otherRule : Rule := ⟨⟨"B"⟩, [⟨3, none, [⟨"B"⟩, ⟨"A"⟩]⟩], List.cons_ne_nil _ _⟩

theorem reorders_otherRule : Rule.Reorders [replacedRule, replacingRule, otherRule]
    [replacedRule, otherRule, replacingRule] := by
  refine ⟨Equiv.swap (1 : Fin 3) 2, ?_, ?_⟩
  · show ∀ i : Fin 3, _
    intro i
    match i with
    | 0 | 1 | 2 => rfl
  · show ∀ i j : Fin 3, _
    decide +kernel

theorem rule_order_immaterial_replacing :
    Rule.Reorders [replacedRule, replacingRule, otherRule]
      [replacedRule, otherRule, replacingRule] ∧
    threeLanes.seed = some 7 ∧
    (∃ growth growth',
      ofGrammar ⟨"A"⟩ (Grammar.ofRules [replacedRule, replacingRule, otherRule]) threeLanes 0 =
        .ok growth ∧
      ofGrammar ⟨"A"⟩ (Grammar.ofRules [replacedRule, otherRule, replacingRule]) threeLanes 1 =
        .ok growth' ∧
      InUnison growth growth' ∧
      (growth.growTo 3 0).names =
        [⟨"B"⟩, ⟨"A"⟩, ⟨"B"⟩, ⟨"A"⟩, ⟨"B"⟩, ⟨"A"⟩, ⟨"A"⟩, ⟨"S2"⟩]) ∧
    (∃ rules, List.Forall₂ Rule.IsReadFrom [(⟨"A"⟩, "1 x; oops"), (⟨"B"⟩, "0 *A; ;")] rules ∧
      Grammar.parse [(⟨"A"⟩, "1 x; oops"), (⟨"B"⟩, "0 *A; ;")] = .ok (Grammar.ofRules rules)) ∧
    IsFirst (fun entry : Name × String => Alternative.parseAll entry.2 = [])
      [(⟨"A"⟩, "1 x"), (⟨"B"⟩, "-1 y; 1 *"), (⟨"C"⟩, "oops")] (⟨"B"⟩, "-1 y; 1 *") ∧
    Grammar.parse [(⟨"A"⟩, "1 x"), (⟨"B"⟩, "-1 y; 1 *"), (⟨"C"⟩, "oops")] =
      .error (.emptyRule ⟨"B"⟩) := by
  obtain ⟨-, reordered, read, refused⟩ := rule_order_immaterial
  obtain ⟨-, -, runs⟩ := reordered _ _ reorders_otherRule
  have evaluated : (ofGrammar ⟨"A"⟩ (Grammar.ofRules [replacedRule, replacingRule, otherRule])
      threeLanes 0).toOption.map (fun growth => (growth.growTo 3 0).names) =
      some [⟨"B"⟩, ⟨"A"⟩, ⟨"B"⟩, ⟨"A"⟩, ⟨"B"⟩, ⟨"A"⟩, ⟨"A"⟩, ⟨"S2"⟩] := by decide +kernel
  obtain ⟨growth, prepared, names⟩ := exists_ok_of_toOption_map evaluated
  obtain ⟨same, unison⟩ := runs ⟨"A"⟩ threeLanes 7 rfl 0 1
  have prepared' := same.trans prepared
  have nonempty : ∀ entry ∈ [((⟨"A"⟩ : Name), "1 x; oops"), (⟨"B"⟩, "0 *A; ;")],
      Alternative.parseAll entry.2 ≠ [] := by
    have survive : ∀ body ∈ ["1 x; oops", "0 *A; ;"], (Alternative.parseAll body).length = 1 := by
      decide +kernel
    intro entry member isEmpty
    have one := survive entry.2 (List.mem_map_of_mem member)
    rw [isEmpty] at one
    cases one
  have first : IsFirst (fun entry : Name × String => Alternative.parseAll entry.2 = [])
      [(⟨"A"⟩, "1 x"), (⟨"B"⟩, "-1 y; 1 *"), (⟨"C"⟩, "oops")] (⟨"B"⟩, "-1 y; 1 *") := by
    have survives : (Alternative.parseAll "1 x").length = 1 := by decide +kernel
    have dropped : (Alternative.parseAll "-1 y; 1 *").length = 0 := by decide +kernel
    refine .tail (fun isEmpty => ?_) (.head (List.eq_nil_of_length_eq_zero dropped))
    rw [isEmpty] at survives
    cases survives
  exact ⟨reorders_otherRule, rfl,
    ⟨growth, growth, prepared, prepared', unison _ _ prepared prepared', names⟩,
    read _ nonempty, first, refused _ _ first⟩

end Lindenmayer.Growth
