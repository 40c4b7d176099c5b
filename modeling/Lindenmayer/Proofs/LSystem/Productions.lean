import Lindenmayer.LSystem
import Lindenmayer.Proofs.Alphabet.Encoding
import Lindenmayer.Proofs.Alphabet.Slots

/-!
# Productions

What compilation makes of a grammar.  Each alternative becomes a choice of the same weight over the
symbols that its names mean, the sampler prepared for a predecessor draws among the choices open
behind it, and a symbol has the production of the last rule whose name means it.
-/

namespace Lindenmayer

/-! ### Choices -/

/-- A choice is what an alternative becomes: it has the same weight, and the symbols that the names
of the alternative mean. -/
structure Choice.Compiles (alphabet : Alphabet) (alternative : Alternative) (choice : Choice) :
    Prop where
  weight : choice.weight = alternative.weight
  catalyst : Option.Rel alphabet.Means alternative.catalyst choice.catalyst
  successors : List.Forall₂ alphabet.Means alternative.successors choice.successors

/-- Puts the symbol for a name that a rule mentions. -/
def Choice.resolve (alphabet : Alphabet) (rule name : Name) : Except Error Symbol :=
  match alphabet.symbol? name with
  | some symbol => .ok symbol
  | none => .error (.undeclaredSymbol rule name)

theorem Choice.resolve_eq_ok_iff {alphabet : Alphabet} {rule name : Name} {symbol : Symbol} :
    Choice.resolve alphabet rule name = .ok symbol ↔ alphabet.Means name symbol := by
  unfold Choice.resolve Alphabet.Means
  cases alphabet.symbol? name <;> simp

theorem Choice.resolve_catalyst_eq_ok_iff {alphabet : Alphabet} {rule : Name}
    {catalyst : Option Name} {symbol : Option Symbol} :
    catalyst.mapM (Choice.resolve alphabet rule) = .ok symbol ↔
      Option.Rel alphabet.Means catalyst symbol := by
  cases catalyst with
  | none =>
    constructor
    · intro resolved
      cases resolved
      exact .none
    · intro related
      cases related
      rfl
  | some name =>
    rw [Option.mapM_some]
    constructor
    · intro resolved
      cases found : Choice.resolve alphabet rule name with
      | error error =>
        rw [found] at resolved
        cases resolved
      | ok meant =>
        rw [found] at resolved
        cases resolved
        exact .some (Choice.resolve_eq_ok_iff.mp found)
    · intro related
      cases related with
      | some means => rw [Choice.resolve_eq_ok_iff.mpr means]; rfl

theorem Choice.ofAlternative_eq_ok_iff {alphabet : Alphabet} {rule : Name}
    {alternative : Alternative} {choice : Choice} :
    Choice.ofAlternative alphabet rule alternative = .ok choice ↔
      Choice.Compiles alphabet alternative choice := by
  have unfolded : Choice.ofAlternative alphabet rule alternative =
      (alternative.catalyst.mapM (Choice.resolve alphabet rule)).bind fun catalyst =>
        (alternative.successors.mapM (Choice.resolve alphabet rule)).bind fun successors =>
          .ok ⟨alternative.weight, catalyst, successors⟩ := rfl
  rw [unfolded]
  constructor
  · intro compiled
    cases catalyst : alternative.catalyst.mapM (Choice.resolve alphabet rule) with
    | error error =>
      rw [catalyst] at compiled
      cases compiled
    | ok symbol =>
      cases successors : alternative.successors.mapM (Choice.resolve alphabet rule) with
      | error error =>
        rw [catalyst, successors] at compiled
        cases compiled
      | ok symbols =>
        rw [catalyst, successors] at compiled
        cases compiled
        exact ⟨rfl, Choice.resolve_catalyst_eq_ok_iff.mp catalyst,
          (mapM_eq_ok_iff.mp successors).imp fun _ _ => Choice.resolve_eq_ok_iff.mp⟩
  · intro ⟨weight, catalyst, successors⟩
    have successorsOk : alternative.successors.mapM (Choice.resolve alphabet rule) =
        .ok choice.successors :=
      mapM_eq_ok_iff.mpr (successors.imp fun _ _ => Choice.resolve_eq_ok_iff.mpr)
    rw [Choice.resolve_catalyst_eq_ok_iff.mpr catalyst, successorsOk, ← weight]
    rfl

/-- The pool of some choices, read off the alternatives that they were made from. -/
theorem Choice.pool_eq_of_compiles {alphabet : Alphabet} {alternatives : List Alternative}
    {choices : List Choice}
    (compiles : List.Forall₂ (Choice.Compiles alphabet) alternatives choices)
    {catalyst : Option Symbol} {test : Alternative → Bool}
    (same : ∀ {alternative choice}, Choice.Compiles alphabet alternative choice →
      choice.isOpen catalyst = test alternative) :
    Choice.pool choices catalyst = alternatives.zipIdx.filterMap fun entry =>
      if test entry.1 then some (entry.2, entry.1.weight) else none := by
  suffices general : ∀ first, (choices.zipIdx first).filterMap (fun entry =>
      if entry.1.isOpen catalyst then some (entry.2, entry.1.weight) else none) =
        (alternatives.zipIdx first).filterMap fun entry =>
          if test entry.1 then some (entry.2, entry.1.weight) else none from
    general 0
  induction compiles with
  | nil => intro first; rfl
  | cons head _ ih =>
    intro first
    rw [List.zipIdx_cons, List.zipIdx_cons, List.filterMap_cons, List.filterMap_cons,
      ih (first + 1)]
    simp only [same head, head.weight]

namespace Production

/-! ### Samplers -/

theorem pool_of_not_catalyst {choices : List Choice} {predecessor : Symbol}
    (absent : predecessor ∉ choices.filterMap Choice.catalyst) :
    Choice.pool choices (some predecessor) = Choice.pool choices none := by
  unfold Choice.pool
  apply List.filterMap_congr
  rintro ⟨choice, index⟩ member
  have inside : choice ∈ choices := List.fst_mem_of_mem_zipIdx member
  have other : choice.catalyst ≠ some predecessor := fun equal =>
    absent (List.mem_filterMap.mpr ⟨choice, inside, equal⟩)
  cases catalyst : choice.catalyst with
  | none => simp [Choice.isOpen, catalyst]
  | some symbol =>
    have different : symbol ≠ predecessor := fun equal => other (by rw [catalyst, equal])
    simp [Choice.isOpen, catalyst, different]

/-- A table that has the samplers of all catalysts, in whatever order and however often, leads to
the sampler of the choices open behind a symbol. -/
theorem sampler_of_table {production : Production} {choices : List Choice} {tabulate : Bool}
    {catalysts : List Symbol}
    (listed : ∀ symbol, symbol ∈ catalysts ↔ symbol ∈ choices.filterMap Choice.catalyst)
    (conditional : production.conditional = catalysts.map fun catalyst =>
      (catalyst, Sampler.ofPool (Choice.pool choices (some catalyst)) tabulate))
    (unconditional : production.unconditional =
      Sampler.ofPool (Choice.pool choices none) tabulate) (predecessor : Symbol) :
    production.sampler predecessor =
      Sampler.ofPool (Choice.pool choices (some predecessor)) tabulate := by
  simp only [sampler, conditional, unconditional, List.find?_map]
  cases found : catalysts.find? ((fun entry => entry.1 == predecessor) ∘ fun catalyst =>
      (catalyst, Sampler.ofPool (Choice.pool choices (some catalyst)) tabulate)) with
  | some catalyst =>
    have equal : catalyst = predecessor := by simpa using List.find?_some found
    rw [Option.map_some, equal]
  | none =>
    have absent : predecessor ∉ choices.filterMap Choice.catalyst := by
      intro member
      have checked := List.find?_eq_none.mp found predecessor ((listed predecessor).mpr member)
      simp at checked
    rw [Option.map_none, pool_of_not_catalyst absent]

/-- The sampler used behind a symbol draws among exactly the choices open behind it. -/
theorem sampler_ofChoices (choices : List Choice) (tabulate : Bool) (predecessor : Symbol) :
    (ofChoices choices tabulate).sampler predecessor =
      Sampler.ofPool (Choice.pool choices (some predecessor)) tabulate :=
  sampler_of_table (fun _ => mem_eraseReps.trans mem_inOrder) rfl rfl predecessor

/-- The table lists the catalysts of the choices in order, each of them once. -/
theorem pairwise_conditional (choices : List Choice) (tabulate : Bool) :
    (ofChoices choices tabulate).conditional.Pairwise fun entry later =>
      compare entry.1 later.1 = .lt :=
  List.pairwise_map.mpr (pairwise_eraseReps (pairwise_inOrder _))

theorem ofRule_eq_ok_iff {alphabet : Alphabet} {tabulate : Bool} {rule : Rule}
    {production : Production} :
    ofRule alphabet tabulate rule = .ok production ↔
      ∃ choices, List.Forall₂ (Choice.Compiles alphabet) rule.alternatives choices ∧
        ofChoices choices tabulate = production := by
  have compiles : ∀ choices, List.Forall₂ (Choice.Compiles alphabet) rule.alternatives choices ↔
      rule.alternatives.mapM (Choice.ofAlternative alphabet rule.predecessor) = .ok choices := by
    intro choices
    rw [mapM_eq_ok_iff]
    exact ⟨fun h => h.imp fun _ _ => Choice.ofAlternative_eq_ok_iff.mpr,
      fun h => h.imp fun _ _ => Choice.ofAlternative_eq_ok_iff.mp⟩
  simp only [compiles, ofRule]
  cases rule.alternatives.mapM (Choice.ofAlternative alphabet rule.predecessor) with
  | error error => simp [Except.map]
  | ok choices => simp [Except.map]

end Production

namespace LSystem

/-! ### The table of productions -/

/-- The production stored for a symbol in a table. -/
def stored? (alphabet : Alphabet) (table : Array (Option Production)) (symbol : Symbol) :
    Option Production :=
  (alphabet.slot? symbol).bind fun slot => table[slot]?.join

@[simp] theorem size_store (alphabet : Alphabet) (table : Array (Option Production))
    (entry : Symbol × Production) : (store alphabet table entry).size = table.size := by
  unfold store
  split <;> simp

theorem size_foldl_store (alphabet : Alphabet) (table : Array (Option Production))
    (entries : List (Symbol × Production)) :
    (entries.foldl (store alphabet) table).size = table.size := by
  induction entries generalizing table with
  | nil => rfl
  | cons entry entries ih => rw [List.foldl_cons, ih, size_store]

/-- Storing a production for one symbol changes nothing for the others. -/
theorem stored?_store {grammar : Grammar} (fits : Alphabet.Fits grammar)
    {table : Array (Option Production)} (size : table.size = (Alphabet.assemble grammar).slotCount)
    {entry : Symbol × Production} {slot : Nat}
    (placed : (Alphabet.assemble grammar).slot? entry.1 = some slot) (symbol : Symbol) :
    stored? (Alphabet.assemble grammar) (store (Alphabet.assemble grammar) table entry) symbol =
      if entry.1 = symbol then some entry.2
      else stored? (Alphabet.assemble grammar) table symbol := by
  have inside : slot < table.size := by
    rw [size]
    exact Alphabet.slot?_lt_slotCount fits placed
  simp only [stored?, store, placed]
  by_cases same : entry.1 = symbol
  · rw [if_pos same, ← same, placed, Option.bind_some,
      Array.getElem?_setIfInBounds_self_of_lt inside, Option.join_some]
  · rw [if_neg same]
    cases other : (Alphabet.assemble grammar).slot? symbol with
    | none => rfl
    | some slot' =>
      have apart : slot ≠ slot' := by
        rintro rfl
        exact same (Alphabet.slot?_injective fits placed other)
      rw [Option.bind_some, Option.bind_some, Array.getElem?_setIfInBounds_ne apart]

/-- Of the productions stored for a symbol the last one counts. -/
theorem stored?_foldl_store {grammar : Grammar} (fits : Alphabet.Fits grammar)
    {entries : List (Symbol × Production)}
    (placed : ∀ entry ∈ entries, ∃ slot, (Alphabet.assemble grammar).slot? entry.1 = some slot)
    (symbol : Symbol) :
    stored? (Alphabet.assemble grammar)
        (entries.foldl (store (Alphabet.assemble grammar))
          (Array.replicate (Alphabet.assemble grammar).slotCount none)) symbol =
      (entries.reverse.find? fun entry => entry.1 == symbol).map Prod.snd := by
  induction entries using List.reverseRecOn with
  | nil =>
    cases slot : (Alphabet.assemble grammar).slot? symbol with
    | none => simp [stored?, slot]
    | some position =>
      simp only [stored?, slot, List.foldl_nil, Option.bind_some, Array.getElem?_replicate]
      split <;> rfl
  | append_singleton entries entry ih =>
    have earlier := ih fun other member => placed other (List.mem_append_left _ member)
    obtain ⟨slot, last⟩ := placed entry (by simp)
    have size : (entries.foldl (store (Alphabet.assemble grammar))
        (Array.replicate (Alphabet.assemble grammar).slotCount none)).size =
          (Alphabet.assemble grammar).slotCount := by
      rw [size_foldl_store, Array.size_replicate]
    rw [List.foldl_append, List.foldl_cons, List.foldl_nil, stored?_store fits size last, earlier,
      List.reverse_append, List.reverse_singleton, List.singleton_append, List.find?_cons]
    by_cases same : entry.1 = symbol
    · simp [same]
    · rw [if_neg same, beq_eq_false_iff_ne.mpr same]

/-! ### Compilation -/

/-- A rule stored under a name becomes a production of the symbol that the name means. -/
def RuleCompiles (alphabet : Alphabet) (tabulate : Bool) (rule : Name × Rule)
    (entry : Symbol × Production) : Prop :=
  alphabet.Means rule.1 entry.1 ∧ ∃ choices,
    List.Forall₂ (Choice.Compiles alphabet) rule.2.alternatives choices ∧
      Production.ofChoices choices tabulate = entry.2

theorem compileRule_eq_ok_iff {alphabet : Alphabet} {tabulate : Bool} {rule : Name × Rule}
    {entry : Symbol × Production} :
    compileRule alphabet tabulate rule = .ok entry ↔ RuleCompiles alphabet tabulate rule entry := by
  obtain ⟨symbol, production⟩ := entry
  simp only [RuleCompiles, ← Production.ofRule_eq_ok_iff, Alphabet.Means, compileRule]
  cases alphabet.symbol? rule.1 with
  | none => simp
  | some meant =>
    cases Production.ofRule alphabet tabulate rule.2 with
    | error error => simp [Except.map]
    | ok compiled => simp [Except.map]

/-- What compilation makes of a grammar: the alphabet of the grammar, the symbol of the start name,
and for each symbol the production of the last rule whose name means it. -/
structure Compiles (start : Name) (grammar : Grammar) (tabulate : Bool) (system : LSystem)
    (entries : List (Symbol × Production)) : Prop where
  fits : Alphabet.Fits grammar
  alphabet_eq : system.alphabet = Alphabet.assemble grammar
  start : system.alphabet.Means start system.start
  rules : List.Forall₂ (RuleCompiles system.alphabet tabulate) grammar.rules.toList entries
  production? : ∀ symbol, system.production? symbol =
    (entries.reverse.find? fun entry => entry.1 == symbol).map Prod.snd
  tabulated : system.tabulated = tabulate

theorem exists_compiles {start : Name} {grammar : Grammar} {tabulate : Bool} {system : LSystem}
    (compiled : compile start grammar tabulate = .ok system) :
    ∃ entries, Compiles start grammar tabulate system entries := by
  cases built : Alphabet.build grammar with
  | error error =>
    simp only [compile, built] at compiled
    cases compiled
  | ok alphabet =>
    obtain ⟨fits, -, rfl⟩ := Alphabet.build_eq_ok_iff.mp built
    cases known : (Alphabet.assemble grammar).symbol? start with
    | none =>
      simp only [compile, built, bind, Except.bind, known] at compiled
      cases compiled
    | some symbol =>
      cases rules : grammar.rules.toList.mapM
          (compileRule (Alphabet.assemble grammar) tabulate) with
      | error error =>
        simp only [compile, built, bind, Except.bind, known, rules] at compiled
        cases compiled
      | ok entries =>
        simp only [compile, built, bind, Except.bind, known, rules] at compiled
        cases compiled
        have compiles := (mapM_eq_ok_iff.mp rules).imp fun _ _ => compileRule_eq_ok_iff.mp
        refine ⟨entries, fits, rfl, known, compiles, ?_, rfl⟩
        apply stored?_foldl_store fits
        intro entry member
        obtain ⟨rule, -, means, -⟩ := exists_left_of_forall₂ compiles member
        exact Alphabet.slot?_of_symbol? fits means

section

variable {start : Name} {grammar : Grammar} {tabulate : Bool} {system : LSystem}
  {entries : List (Symbol × Production)}
  (compiles : Compiles start grammar tabulate system entries)
include compiles

/-- The production of a symbol comes from a rule whose name means the symbol, and there is one if
there is such a rule. -/
theorem Compiles.production?_eq_some {symbol : Symbol} {production : Production}
    (found : system.production? symbol = some production) :
    ∃ rule ∈ grammar.rules.toList,
      RuleCompiles system.alphabet tabulate rule (symbol, production) := by
  rw [compiles.production?, Option.map_eq_some_iff] at found
  obtain ⟨entry, last, rfl⟩ := found
  obtain rfl : entry.1 = symbol := by simpa using List.find?_some last
  exact exists_left_of_forall₂ compiles.rules (List.mem_reverse.mp (List.mem_of_find?_eq_some last))

theorem Compiles.production?_eq_none {symbol : Symbol}
    (missing : system.production? symbol = none) :
    ∀ rule ∈ grammar.rules.toList, ¬system.alphabet.Means rule.1 symbol := by
  intro rule member means
  obtain ⟨entry, listed, entryMeans, -⟩ := exists_right_of_forall₂ compiles.rules member
  have same : entry.1 = symbol := by
    rw [Alphabet.Means] at entryMeans means
    rw [entryMeans] at means
    exact Option.some.inj means
  rw [compiles.production?, Option.map_eq_none_iff, List.find?_eq_none] at missing
  have checked := missing entry (List.mem_reverse.mpr listed)
  simp [same] at checked

/-- Every choice of a production comes from an alternative of such a rule. -/
theorem Compiles.exists_alternative {symbol : Symbol} {production : Production}
    (found : system.production? symbol = some production) {choice : Choice}
    (member : choice ∈ production.choices.toList) :
    ∃ rule ∈ grammar.rules.toList, system.alphabet.Means rule.1 symbol ∧
      ∃ alternative ∈ rule.2.alternatives, Choice.Compiles system.alphabet alternative choice := by
  obtain ⟨rule, listed, means, choices, related, rfl⟩ := compiles.production?_eq_some found
  obtain ⟨alternative, given, compiled⟩ := exists_left_of_forall₂ related member
  exact ⟨rule, listed, means, alternative, given, compiled⟩

end

end LSystem

end Lindenmayer
