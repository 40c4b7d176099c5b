import Lindenmayer.Proofs.Grammar.Tidy
import Lindenmayer.Proofs.LSystem.Productions

/-!
# Which rule a symbol follows

Rules are stored under names, but productions under symbols.  Where several names with rules mean
one symbol, the symbol follows the rule whose name is last in the order of names, and the others
have no effect.  The order in which the rules were added plays no part.
-/

namespace Lindenmayer

/-- Of the rules whose names mean the symbol, this is the last one in the order of names. -/
structure Grammar.LastFor (grammar : Grammar) (alphabet : Alphabet) (symbol : Symbol) (key : Name)
    (rule : Rule) : Prop where
  stored : grammar.rules[key]? = some rule
  means : alphabet.Means key symbol
  last : ∀ other ∈ grammar.rules, alphabet.Means other symbol → (compare other key).isLE

theorem Grammar.LastFor.mem {grammar : Grammar} {alphabet : Alphabet} {symbol : Symbol} {key : Name}
    {rule : Rule} (here : grammar.LastFor alphabet symbol key rule) : key ∈ grammar.rules :=
  Std.ExtTreeMap.mem_iff_isSome_getElem?.mpr (Option.isSome_of_eq_some here.stored)

/-- There is only one last rule. -/
theorem Grammar.LastFor.unique {grammar : Grammar} {alphabet : Alphabet} {symbol : Symbol}
    {key key' : Name} {rule rule' : Rule} (here : grammar.LastFor alphabet symbol key rule)
    (there : grammar.LastFor alphabet symbol key' rule') : key = key' :=
  Std.LawfulEqCmp.eq_of_compare (Std.OrientedCmp.isLE_antisymm
    (there.last key here.mem here.means) (here.last key' there.mem there.means))

namespace LSystem

variable {start : Name} {grammar : Grammar} {tabulate : Bool} {system : LSystem}
  {entries : List (Symbol × Production)}

/-- The first rule for a symbol, from the end of the table backwards, is the last one for it. -/
theorem lastFor_of_isFirst {alphabet : Alphabet} {symbol : Symbol} {entry : Name × Rule}
    (first : IsFirst (fun entry => alphabet.Means entry.1 symbol) grammar.rules.toList.reverse
      entry) : grammar.LastFor alphabet symbol entry.1 entry.2 where
  stored := Std.ExtTreeMap.mem_toList_iff_getElem?_eq_some.mp (List.mem_reverse.mp first.mem)
  means := first.holds
  last := by
    have sorted : grammar.rules.toList.reverse.Pairwise fun later earlier =>
        compare earlier.1 later.1 = .lt := by
      rw [List.pairwise_reverse]
      exact Std.ExtTreeMap.ordered_keys_toList
    intro other inside means
    obtain ⟨rule, stored⟩ := Option.isSome_iff_exists.mp
      (Std.ExtTreeMap.mem_iff_isSome_getElem?.mp inside)
    have member : (other, rule) ∈ grammar.rules.toList.reverse :=
      List.mem_reverse.mpr (Std.ExtTreeMap.mem_toList_iff_getElem?_eq_some.mpr stored)
    rcases first.of_pairwise sorted member means with rfl | before
    · simp
    · simp [before]

/-- The production of a symbol is made of the last rule for it. -/
theorem Compiles.lastFor (compiles : Compiles start grammar tabulate system entries)
    {symbol : Symbol} {production : Production}
    (found : system.production? symbol = some production) :
    ∃ key rule, grammar.LastFor system.alphabet symbol key rule ∧
      RuleCompiles system.alphabet tabulate (key, rule) (symbol, production) := by
  rw [compiles.production?, Option.map_eq_some_iff] at found
  obtain ⟨⟨symbol', _⟩, search, rfl⟩ := found
  obtain rfl : symbol' = symbol := by simpa using List.find?_some search
  have same : ∀ (rule : Name × Rule) (entry : Symbol × Production),
      RuleCompiles system.alphabet tabulate rule entry →
        (system.alphabet.Means rule.1 symbol' ↔ (entry.1 == symbol') = true) := by
    intro rule entry ⟨means, _⟩
    rw [Alphabet.Means] at means ⊢
    simp [means]
  obtain ⟨⟨key, rule⟩, first, compiled⟩ := IsFirst.of_forall₂
    (List.forall₂_reverse_iff.mpr compiles.rules) same (find?_eq_some_iff_isFirst.mp search)
  exact ⟨key, rule, lastFor_of_isFirst first, compiled⟩

/-- Every name with a rule means a symbol that has a production. -/
theorem Compiles.exists_production (compiles : Compiles start grammar tabulate system entries)
    {key : Name} {rule : Rule} (stored : grammar.rules[key]? = some rule) :
    ∃ symbol production, system.alphabet.Means key symbol ∧
      system.production? symbol = some production := by
  have member := Std.ExtTreeMap.mem_toList_iff_getElem?_eq_some.mpr stored
  obtain ⟨⟨symbol, _⟩, -, means, -⟩ := exists_right_of_forall₂ compiles.rules member
  cases found : system.production? symbol with
  | none => exact absurd means (compiles.production?_eq_none found _ member)
  | some production => exact ⟨symbol, production, means, found⟩

/-- What a compiled system keeps of a rule.  The symbol for its name has a production, and this is
made, alternative by alternative, of the last rule for the symbol.  In a grammar that is put
together by adding rules, that is the rule itself exactly if no rule for another spelling of its
name comes later in the order of names. -/
theorem choices_of_rule (compiled : compile start grammar tabulate = .ok system) {key : Name}
    {rule : Rule} (stored : grammar.rules[key]? = some rule) :
    ∃ symbol production last winner,
      system.alphabet.Means key symbol ∧ system.production? symbol = some production ∧
      grammar.LastFor system.alphabet symbol last winner ∧
      List.Forall₂ (Choice.Compiles system.alphabet) winner.alternatives
        production.choices.toList ∧
      (grammar.Assembled → (last = key ↔ ∀ other ∈ grammar.rules,
        other.canonical = key.canonical → (compare other key).isLE)) := by
  obtain ⟨entries, compiles⟩ := exists_compiles compiled
  obtain ⟨symbol, production, means, found⟩ := compiles.exists_production stored
  obtain ⟨last, winner, lastFor, -, choices, related, rfl⟩ := compiles.lastFor found
  refine ⟨symbol, _, last, winner, means, found, lastFor, related, ?_⟩
  intro assembled
  have sameSymbol : ∀ other symbol', system.alphabet.Means other symbol' →
      (symbol' = symbol ↔ other.canonical = key.canonical) := by
    intro other symbol' means'
    rw [compiles.alphabet_eq] at means means'
    exact Alphabet.symbol?_eq_iff_canonical compiles.fits assembled.tidy.ordinaryConstants means'
      means
  constructor
  case mp =>
    rintro rfl other inside named
    obtain ⟨rule', stored'⟩ := Option.isSome_iff_exists.mp
      (Std.ExtTreeMap.mem_iff_isSome_getElem?.mp inside)
    obtain ⟨symbol', _, means', -⟩ := compiles.exists_production stored'
    obtain rfl := (sameSymbol other symbol' means').mpr named
    exact lastFor.last other inside means'
  case mpr =>
    intro latest
    have isLast : grammar.LastFor system.alphabet symbol key rule :=
      ⟨stored, means, fun other inside means' =>
        latest other inside ((sameSymbol other symbol means').mp rfl)⟩
    exact lastFor.unique isLast

/-- Rules for two spellings of one level, of which the earlier one is added last. -/
def twoSpellings : Grammar :=
  Grammar.ofRules
    [⟨⟨"A"⟩, [⟨1, none, [⟨"S3"⟩]⟩], by simp⟩, ⟨⟨"S3"⟩, [⟨1, none, [⟨"C"⟩]⟩], by simp⟩,
      ⟨⟨"S03"⟩, [⟨1, none, [⟨"B"⟩]⟩], by simp⟩]

/-- Both spellings mean the same symbol. -/
theorem exists_compile_twoSpellings :
    ∃ system, compile ⟨"A"⟩ twoSpellings false = .ok system ∧
      system.alphabet.Means ⟨"S3"⟩ (.counter 3 3) ∧ system.alphabet.Means ⟨"S03"⟩ (.counter 3 3) ∧
      system.alphabet.Means ⟨"B"⟩ (.plain 1) ∧ system.alphabet.Means ⟨"C"⟩ (.plain 2) := by
  have evaluated : (compile ⟨"A"⟩ twoSpellings false).toOption.map (fun system =>
      [⟨"S3"⟩, ⟨"S03"⟩, ⟨"B"⟩, ⟨"C"⟩].map system.alphabet.symbol?) =
        some [some (.counter 3 3), some (.counter 3 3), some (.plain 1), some (.plain 2)] := by
    decide +kernel
  obtain ⟨system, compiled, read⟩ := exists_ok_of_toOption_map evaluated
  simp only [List.map_cons, List.map_nil, List.cons.injEq, and_true] at read
  exact ⟨system, compiled, read⟩

/-- The rule that was added last has no effect, as its symbol follows the other one. -/
theorem choices_of_rule_twoSpellings :
    ∃ system production, compile ⟨"A"⟩ twoSpellings false = .ok system ∧ twoSpellings.Assembled ∧
      twoSpellings.rules[Name.mk "S03"]? = some ⟨⟨"S03"⟩, [⟨1, none, [⟨"B"⟩]⟩], by simp⟩ ∧
      system.alphabet.Means ⟨"S03"⟩ (.counter 3 3) ∧
      system.production? (.counter 3 3) = some production ∧
      List.Forall₂ (Choice.Compiles system.alphabet) [⟨1, none, [⟨"C"⟩]⟩]
        production.choices.toList := by
  obtain ⟨system, compiled, plainly, padded, -⟩ := exists_compile_twoSpellings
  have assembled : twoSpellings.Assembled := Grammar.assembled_ofRules _
  have stored : twoSpellings.rules[Name.mk "S03"]? =
      some ⟨⟨"S03"⟩, [⟨1, none, [⟨"B"⟩]⟩], by simp⟩ := by rfl
  have other : twoSpellings.rules[Name.mk "S3"]? =
      some ⟨⟨"S3"⟩, [⟨1, none, [⟨"C"⟩]⟩], by simp⟩ := by rfl
  obtain ⟨symbol, production, last, winner, means, found, lastFor, related, own⟩ :=
    choices_of_rule compiled other
  have latest : ∀ key ∈ twoSpellings.rules.keys, (compare key ⟨"S3"⟩).isLE := by decide +kernel
  obtain rfl : last = ⟨"S3"⟩ := (own assembled).mpr fun key inside _ =>
    latest key (Std.ExtTreeMap.mem_keys.mpr inside)
  obtain rfl := Option.some.inj (lastFor.stored.symm.trans other)
  obtain rfl : symbol = .counter 3 3 := Option.some.inj (means.symm.trans plainly)
  exact ⟨system, production, compiled, assembled, stored, padded, found, related⟩

/-- Not every rule of a grammar counts, even if the grammar compiles. -/
theorem not_choices_of_every_rule :
    ¬∀ grammar : Grammar, grammar.Assembled → ∀ start tabulate system,
      compile start grammar tabulate = .ok system → ∀ key rule, grammar.rules[key]? = some rule →
        ∃ symbol production, system.alphabet.Means key symbol ∧
          system.production? symbol = some production ∧
          List.Forall₂ (Choice.Compiles system.alphabet) rule.alternatives
            production.choices.toList := by
  intro every
  obtain ⟨system, compiled, plainly, padded, isB, isC⟩ := exists_compile_twoSpellings
  have kept := every twoSpellings (Grammar.assembled_ofRules _) ⟨"A"⟩ false system compiled
  obtain ⟨symbol, production, means, found, related⟩ :=
    kept ⟨"S3"⟩ ⟨⟨"S3"⟩, [⟨1, none, [⟨"C"⟩]⟩], by simp⟩ (by rfl)
  obtain ⟨symbol', production', means', found', related'⟩ :=
    kept ⟨"S03"⟩ ⟨⟨"S03"⟩, [⟨1, none, [⟨"B"⟩]⟩], by simp⟩ (by rfl)
  obtain rfl : symbol = .counter 3 3 := Option.some.inj (means.symm.trans plainly)
  obtain rfl : symbol' = .counter 3 3 := Option.some.inj (means'.symm.trans padded)
  obtain rfl : production = production' := Option.some.inj (found.symm.trans found')
  -- One choice would have to put both words in place of the symbol.
  generalize production.choices.toList = choices at related related'
  obtain ⟨choice, rest, first, -, rfl⟩ := List.forall₂_cons_left_iff.mp related
  obtain ⟨_, _, first', -, same⟩ := List.forall₂_cons_left_iff.mp related'
  obtain ⟨rfl, -⟩ := List.cons.inj same
  obtain ⟨asC, _, meansC, -, word⟩ := List.forall₂_cons_left_iff.mp first.successors
  obtain ⟨asB, _, meansB, -, word'⟩ := List.forall₂_cons_left_iff.mp first'.successors
  obtain ⟨rfl, -⟩ := List.cons.inj (word.symm.trans word')
  cases Option.some.inj (meansB.symm.trans isB)
  cases Option.some.inj (meansC.symm.trans isC)

end LSystem

end Lindenmayer
