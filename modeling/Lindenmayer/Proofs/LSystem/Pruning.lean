import Lindenmayer.Proofs.LSystem.Agreement
import Lindenmayer.Proofs.LSystem.Comparison
import Lindenmayer.Proofs.LSystem.Failures
import Lindenmayer.Proofs.LSystem.Meaning
import Lindenmayer.Proofs.Sampler.Renumbering

/-!
# Alternatives that cannot be drawn

An alternative whose weight is not a positive finite number is never drawn.  To prune a grammar is
to take such alternatives away, and the rules that are left without any.  The alternatives behind
the ones taken away move up, but they keep their weights and their order, so every draw comes to
the same.
-/

namespace Lindenmayer

/-! ### Pruning -/

/-- Whether an alternative can be drawn. -/
def Alternative.isUsable (alternative : Alternative) : Bool := Sampler.isUsable alternative.weight

/-- The rule with the alternatives that can be drawn, if there are any. -/
def Rule.pruned? (rule : Rule) : Option Rule :=
  (ofAlternatives rule.predecessor (rule.alternatives.filter Alternative.isUsable)).toOption

/-- The grammar with the alternatives that can be drawn, and the rules that have any. -/
def Grammar.pruned (grammar : Grammar) : Grammar :=
  { grammar with rules := grammar.rules.filterMap fun _ rule => rule.pruned? }

namespace Rule

variable {rule rule' : Rule}

theorem alternatives_of_pruned? (kept : rule.pruned? = some rule') :
    rule'.predecessor = rule.predecessor ∧
      rule'.alternatives = rule.alternatives.filter Alternative.isUsable := by
  unfold pruned? at kept
  cases made : ofAlternatives rule.predecessor
      (rule.alternatives.filter Alternative.isUsable) with
  | error error =>
    rw [made] at kept
    cases kept
  | ok left =>
    rw [made] at kept
    obtain rfl := Option.some.inj kept
    exact of_ofAlternatives made

theorem pruned?_eq_none (dropped : rule.pruned? = none) :
    rule.alternatives.filter Alternative.isUsable = [] := by
  unfold pruned? ofAlternatives at dropped
  split at dropped
  · assumption
  · cases dropped

theorem mem_references_of_pruned? (kept : rule.pruned? = some rule') {name : Name}
    (mentioned : name ∈ rule'.references) : name ∈ rule.references := by
  obtain ⟨predecessor, alternatives⟩ := alternatives_of_pruned? kept
  rw [references, alternatives, predecessor] at mentioned
  rcases List.mem_cons.mp mentioned with rfl | mentioned
  · exact List.mem_cons_self
  · obtain ⟨alternative, inside, mentioned⟩ := List.mem_flatMap.mp mentioned
    exact List.mem_cons_of_mem _ (List.mem_flatMap.mpr
      ⟨alternative, (List.mem_filter.mp inside).1, mentioned⟩)

end Rule

namespace Grammar

variable {grammar : Grammar}

theorem rules_pruned (grammar : Grammar) (key : Name) :
    grammar.pruned.rules[key]? = grammar.rules[key]?.bind Rule.pruned? :=
  Std.ExtTreeMap.getElem?_filterMap'

theorem exists_of_rules_pruned {key : Name} {rule' : Rule}
    (stored : grammar.pruned.rules[key]? = some rule') :
    ∃ rule, grammar.rules[key]? = some rule ∧ rule.pruned? = some rule' := by
  rw [rules_pruned] at stored
  exact Option.bind_eq_some_iff.mp stored

theorem sameNames_pruned (grammar : Grammar) : grammar.SameNames grammar.pruned := ⟨rfl, rfl⟩

theorem SameNames.knows {grammar' : Grammar} (same : grammar.SameNames grammar') {name : Name}
    (known : grammar.Knows name) : grammar'.Knows name := by
  obtain ⟨variableNames, constantNames⟩ := same
  cases known with
  | boundary => exact .boundary
  | declared declares =>
    refine .declared ?_
    rw [Declares, ← variableNames, ← constantNames]
    exact declares
  | base declared family => exact .base (variableNames ▸ declared) family
  | level declared family positive below =>
    exact .level (variableNames ▸ declared) family positive below

/-- Pruning takes nothing away that compilation needs. -/
theorem Accepted.pruned {start : Name} (accepted : grammar.Accepted start) :
    grammar.pruned.Accepted start where
  room := accepted.room
  closed := by
    intro rule' listed name mentioned
    obtain ⟨⟨key, _⟩, member, rfl⟩ := List.mem_map.mp listed
    obtain ⟨rule, stored, kept⟩ := exists_of_rules_pruned
      (Std.ExtTreeMap.mem_toList_iff_getElem?_eq_some.mp member)
    have member' := Std.ExtTreeMap.mem_toList_iff_getElem?_eq_some.mpr stored
    exact grammar.sameNames_pruned.knows (accepted.closed rule
      (List.mem_map.mpr ⟨(key, rule), member', rfl⟩) name
      (Rule.mem_references_of_pruned? kept mentioned))
  start := grammar.sameNames_pruned.knows accepted.start
  keys := by
    rintro ⟨key, rule'⟩ member
    obtain ⟨rule, stored, -⟩ := exists_of_rules_pruned
      (Std.ExtTreeMap.mem_toList_iff_getElem?_eq_some.mp member)
    exact grammar.sameNames_pruned.knows (accepted.keys (key, rule)
      (Std.ExtTreeMap.mem_toList_iff_getElem?_eq_some.mpr stored))

/-- No two rules are stored under names that mean the same symbol. -/
def RulesApart (grammar : Grammar) (alphabet : Alphabet) : Prop :=
  ∀ key ∈ grammar.rules, ∀ other ∈ grammar.rules, ∀ symbol,
    alphabet.Means key symbol → alphabet.Means other symbol → key = other

theorem RulesApart.pruned {alphabet : Alphabet} (apart : grammar.RulesApart alphabet) :
    grammar.pruned.RulesApart alphabet :=
  fun key inside other inside' => apart key (Std.ExtTreeMap.mem_of_mem_filterMap inside) other
    (Std.ExtTreeMap.mem_of_mem_filterMap inside')

end Grammar

/-! ### Draws -/

namespace Choice

/-- The usable part of a pool, choice by choice. -/
theorem filter_pool (choices : List Choice) (predecessor : Symbol) :
    (pool choices (some predecessor)).filter (fun entry => Sampler.isUsable entry.2) =
      (choices.zipIdx.filter fun entry =>
        entry.1.isOpen (some predecessor) && Sampler.isUsable entry.1.weight).map
          fun entry => (entry.2, entry.1.weight) := by
  unfold pool
  induction choices.zipIdx with
  | nil => rfl
  | cons entry rest ih =>
    cases opened : entry.1.isOpen (some predecessor) with
    | false => simp [opened, ih]
    | true => cases usable : Sampler.isUsable entry.1.weight <;> simp [opened, usable, ih]

/-- The eligible choices, picked out by position. -/
theorem eligible_eq_map_fst (choices : List Choice) (predecessor : Symbol) :
    eligible choices predecessor =
      (choices.zipIdx.filter fun entry =>
        entry.1.isOpen (some predecessor) && Sampler.isUsable entry.1.weight).map Prod.fst := by
  conv_lhs => rw [eligible, ← List.zipIdx_map_fst 0 choices, List.filter_map]
  rfl

/-- Each eligible choice has one usable entry in the pool. -/
theorem length_usable_pool (choices : List Choice) (predecessor : Symbol) :
    (Sampler.usable (pool choices (some predecessor))).length =
      (eligible choices predecessor).length := by
  rw [Sampler.usable, filter_pool, eligible_eq_map_fst, List.length_map, List.length_map,
    List.length_map]

/-- Lists of choices with the same eligible ones make pools that differ in the numbering only. -/
theorem renumbered_of_eligible {choices others : List Choice} {predecessor : Symbol}
    (same : eligible choices predecessor = eligible others predecessor) :
    Sampler.Renumbered (fun index index' => choices[index]? = others[index']?)
      ((pool choices (some predecessor)).filter fun entry => Sampler.isUsable entry.2)
      ((pool others (some predecessor)).filter fun entry => Sampler.isUsable entry.2) := by
  have found : ∀ list : List Choice, ∀ entry ∈ list.zipIdx.filter (fun entry =>
      entry.1.isOpen (some predecessor) && Sampler.isUsable entry.1.weight),
        list[entry.2]? = some entry.1 := fun list entry member =>
    List.mem_zipIdx_iff_getElem?.mp (List.mem_filter.mp member).1
  rw [eligible_eq_map_fst, eligible_eq_map_fst, ← List.forall₂_eq_eq_eq, List.forall₂_map_left_iff,
    List.forall₂_map_right_iff] at same
  have left := (List.forall₂_and_left _ _).mpr ⟨found choices, same⟩
  have both := (List.forall₂_and_left _ _).mpr ⟨found others, left.flip⟩
  rw [filter_pool, filter_pool]
  unfold Sampler.Renumbered
  rw [List.forall₂_map_left_iff, List.forall₂_map_right_iff]
  refine both.flip.imp ?_
  rintro ⟨choice, index⟩ ⟨_, index'⟩ ⟨there, here, rfl⟩
  exact ⟨here.trans there.symm, rfl⟩

theorem eligible_filter (choices : List Choice) (predecessor : Symbol) :
    eligible (choices.filter fun choice => Sampler.isUsable choice.weight) predecessor =
      eligible choices predecessor := by
  simp only [eligible, List.filter_filter, Bool.and_assoc, Bool.and_self]

/-- An alternative can be drawn exactly if its choice can. -/
theorem Compiles.isUsable_eq {alphabet : Alphabet} {alternative : Alternative} {choice : Choice}
    (compiles : Choice.Compiles alphabet alternative choice) :
    alternative.isUsable = Sampler.isUsable choice.weight := by
  rw [Alternative.isUsable, compiles.weight]

theorem forall₂_compiles_filter {alphabet : Alphabet} {alternatives : List Alternative}
    {choices : List Choice}
    (compiles : List.Forall₂ (Choice.Compiles alphabet) alternatives choices) :
    List.Forall₂ (Choice.Compiles alphabet) (alternatives.filter Alternative.isUsable)
      (choices.filter fun choice => Sampler.isUsable choice.weight) :=
  List.rel_filter (fun _ _ related => iff_of_eq (congrArg (· = true) related.isUsable_eq)) compiles

end Choice

namespace Production

variable {G : Type} [WordSource G]

/-- A draw depends only on the choices that are eligible. -/
theorem draw_congr {choices others : List Choice} {predecessor : Symbol}
    (same : Choice.eligible choices predecessor = Choice.eligible others predecessor)
    (tabulate : Bool) (source : G) :
    (ofChoices choices tabulate).draw predecessor source =
      (ofChoices others tabulate).draw predecessor source := by
  have related :=
    (Sampler.related_ofPool (Choice.renumbered_of_eligible same) tabulate).sample source
  unfold draw
  rw [sampler_ofChoices, sampler_ofChoices]
  generalize (Sampler.ofPool (Choice.pool choices (some predecessor)) tabulate).sample source =
    drawn at related ⊢
  generalize (Sampler.ofPool (Choice.pool others (some predecessor)) tabulate).sample source =
    drawn' at related ⊢
  obtain ⟨entry, rest⟩ := drawn
  obtain ⟨entry', rest'⟩ := drawn'
  obtain ⟨entries, rfl⟩ := related
  cases entries with
  | none => rfl
  | some found => simp [ofChoices, found]

/-- Nothing is drawn where no choice is eligible. -/
theorem draw_of_eligible_eq_nil {choices : List Choice} {predecessor : Symbol}
    (noneEligible : Choice.eligible choices predecessor = []) (tabulate : Bool) (source : G) :
    (ofChoices choices tabulate).draw predecessor source = (none, source) := by
  have same : Choice.eligible choices predecessor = Choice.eligible [] predecessor := noneEligible
  exact draw_congr same tabulate source

end Production

namespace LSystem

/-! ### Pruned systems -/

section

variable {alphabet : Alphabet} {tabulate : Bool} {key : Name} {rule : Rule} {symbol : Symbol}
  {production : Production} {G : Type} [WordSource G]
  (compiles : RuleCompiles alphabet tabulate (key, rule) (symbol, production))
include compiles

/-- What is left of a rule becomes a production with the same draws. -/
theorem RuleCompiles.pruned {rule' : Rule} (kept : rule.pruned? = some rule') :
    ∃ production', RuleCompiles alphabet tabulate (key, rule') (symbol, production') ∧
      ∀ {G : Type} [WordSource G] (predecessor : Symbol) (source : G),
        production.draw predecessor source = production'.draw predecessor source := by
  obtain ⟨means, choices, related, rfl⟩ := compiles
  have related' := Choice.forall₂_compiles_filter related
  rw [← (Rule.alternatives_of_pruned? kept).2] at related'
  refine ⟨Production.ofChoices (choices.filter fun choice => Sampler.isUsable choice.weight)
    tabulate, ⟨means, _, related', rfl⟩, ?_⟩
  intro G _ predecessor source
  exact Production.draw_congr (Choice.eligible_filter choices predecessor).symm tabulate source

/-- Nothing is drawn for a rule of which nothing is left. -/
theorem RuleCompiles.draw_of_pruned?_eq_none (dropped : rule.pruned? = none)
    (predecessor : Symbol) (source : G) :
    production.draw predecessor source = (none, source) := by
  obtain ⟨means, choices, related, rfl⟩ := compiles
  have related' := Choice.forall₂_compiles_filter related
  rw [Rule.pruned?_eq_none dropped, List.forall₂_nil_left_iff] at related'
  refine Production.draw_of_eligible_eq_nil ?_ tabulate source
  rw [← Choice.eligible_filter, related']
  rfl

end

variable {start : Name} {grammar : Grammar} {tabulate : Bool} {system pruned : LSystem}
  {entries entries' : List (Symbol × Production)}

/-- Where no two rules are for one symbol, every rule makes the production of its symbol. -/
theorem Compiles.production?_eq_some_iff
    (compiles : Compiles start grammar tabulate system entries)
    (apart : grammar.RulesApart system.alphabet) {symbol : Symbol} {production : Production} :
    system.production? symbol = some production ↔ ∃ key rule, grammar.rules[key]? = some rule ∧
      RuleCompiles system.alphabet tabulate (key, rule) (symbol, production) := by
  constructor
  · intro found
    obtain ⟨key, rule, here, compiled⟩ := compiles.lastFor found
    exact ⟨key, rule, here.stored, compiled⟩
  · rintro ⟨key, rule, stored, compiled⟩
    obtain ⟨symbol', production', means, found⟩ := compiles.exists_production stored
    obtain rfl : symbol = symbol' := Option.some.inj (compiled.1.symm.trans means)
    obtain ⟨key', rule', here, compiled'⟩ := compiles.lastFor found
    obtain rfl := apart key (Std.ExtTreeMap.mem_iff_isSome_getElem?.mpr
      (Option.isSome_of_eq_some stored)) key' here.mem symbol means here.means
    obtain rfl := Option.some.inj (here.stored.symm.trans stored)
    rw [found, compiled.unique compiled']

section

variable (compiles : Compiles start grammar tabulate system entries)
  (compiles' : Compiles start grammar.pruned tabulate pruned entries')
  (apart : grammar.RulesApart system.alphabet)
include compiles compiles' apart

/-- Pruning leaves a symbol with a production that has the same draws, or with none, if nothing was
ever drawn for it. -/
theorem Compiles.production?_pruned (symbol : Symbol) :
    (∃ production production', system.production? symbol = some production ∧
      pruned.production? symbol = some production' ∧
      ∀ {G : Type} [WordSource G] (predecessor : Symbol) (source : G),
        production.draw predecessor source = production'.draw predecessor source) ∨
    pruned.production? symbol = none ∧ ∀ production, system.production? symbol = some production →
      ∀ {G : Type} [WordSource G] (predecessor : Symbol) (source : G),
        production.draw predecessor source = (none, source) := by
  have alphabets := compiles.alphabet_eq_of_sameNames compiles' grammar.sameNames_pruned
  have apart' : grammar.pruned.RulesApart pruned.alphabet := alphabets ▸ apart.pruned
  cases left : pruned.production? symbol with
  | some production' =>
    obtain ⟨key, rule', stored', compiled'⟩ := (compiles'.production?_eq_some_iff apart').mp left
    obtain ⟨rule, stored, kept⟩ := Grammar.exists_of_rules_pruned stored'
    obtain ⟨⟨symbol', production⟩, -, compiled⟩ := exists_right_of_forall₂ compiles.rules
      (Std.ExtTreeMap.mem_toList_iff_getElem?_eq_some.mpr stored)
    rw [← alphabets] at compiled'
    obtain rfl : symbol' = symbol := Option.some.inj (compiled.1.symm.trans compiled'.1)
    obtain ⟨_, same, draws⟩ := compiled.pruned kept
    obtain rfl := same.unique compiled'
    have found := (compiles.production?_eq_some_iff apart).mpr ⟨key, rule, stored, compiled⟩
    exact Or.inl ⟨production, _, found, rfl, draws⟩
  | none =>
    refine Or.inr ⟨rfl, fun production found => ?_⟩
    obtain ⟨key, rule, stored, compiled⟩ := (compiles.production?_eq_some_iff apart).mp found
    cases kept : rule.pruned? with
    | none => exact compiled.draw_of_pruned?_eq_none kept
    | some rule' =>
      have stored' : grammar.pruned.rules[key]? = some rule' := by
        rw [Grammar.rules_pruned, stored]
        exact kept
      obtain ⟨production', compiled', -⟩ := compiled.pruned kept
      rw [alphabets] at compiled'
      have found' := (compiles'.production?_eq_some_iff apart').mpr
        ⟨key, rule', stored', compiled'⟩
      rw [left] at found'
      cases found'

/-- The system of a pruned grammar does the same with every symbol. -/
theorem Compiles.agreeOn_pruned : AgreeOn (fun _ => True) system pruned where
  prepared := compiles.prepared
  boundary_eq := by rw [compiles.alphabet_eq_of_sameNames compiles' grammar.sameNames_pruned]
  start_eq := compiles.start_eq_of_sameNames compiles' grammar.sameNames_pruned
  start := trivial
  closed _ _ _ _ := trivial
  replacement_eq := by
    intro G _ predecessor symbol source _
    rcases compiles.production?_pruned compiles' apart symbol.lowered with
      ⟨production, production', found, found', draws⟩ | ⟨missing, draws⟩
    · simp only [replacement, found, found', draws]
    · cases found : system.production? symbol.lowered with
      | none => simp only [replacement, found, missing]
      | some production => simp [replacement, found, missing, draws production found]

end

end LSystem

end Lindenmayer
