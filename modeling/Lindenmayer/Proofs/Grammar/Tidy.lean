import Lindenmayer.Grammar.Reader
import Lindenmayer.Proofs.Alphabet.Slots

/-!
# Tidy grammars

A grammar that is put together by adding rules and declaring names keeps its parts in order: names
are declared by their spelling, each rule is stored under its own predecessor, and whatever a rule
mentions is declared.
-/

namespace Lindenmayer

/-- A rule that is made keeps what it is made of. -/
theorem Rule.of_ofAlternatives {predecessor : Name} {alternatives : List Alternative} {rule : Rule}
    (made : ofAlternatives predecessor alternatives = .ok rule) :
    rule.predecessor = predecessor ∧ rule.alternatives = alternatives := by
  cases alternatives with
  | nil => cases made
  | cons first rest =>
    cases made
    exact ⟨rfl, rfl⟩

namespace Grammar

/-- Grammars put together from nothing by adding rules and declaring names. -/
inductive Assembled : Grammar → Prop
  | empty : Assembled empty
  | insert {grammar : Grammar} (rule : Rule) : Assembled grammar → Assembled (grammar.insert rule)
  | declare {grammar : Grammar} (name : Name) :
    Assembled grammar → Assembled (grammar.declare name)

/-- Whether a grammar declares a name, as a variable or as a constant. -/
def Declares (grammar : Grammar) (name : Name) : Prop :=
  name ∈ grammar.variableNames ∨ name ∈ grammar.constantNames

/-- The parts of the grammar are in order. -/
structure Tidy (grammar : Grammar) : Prop where
  isVariable : ∀ name ∈ grammar.variableNames, name.isVariable = true
  isConstant : ∀ name ∈ grammar.constantNames, name.isVariable = false
  predecessor : ∀ (key : Name) (rule : Rule), grammar.rules[key]? = some rule →
    rule.predecessor = key
  declared : ∀ (key : Name) (rule : Rule), grammar.rules[key]? = some rule →
    ∀ name ∈ rule.references, grammar.Declares name

/-- The grammar made of a list of rules is put together by adding them. -/
theorem assembled_ofRules (rules : List Rule) : Assembled (ofRules rules) := by
  suffices general : ∀ grammar, Assembled grammar → Assembled (rules.foldl insert grammar) from
    general empty .empty
  induction rules with
  | nil =>
    intro grammar assembled
    exact assembled
  | cons rule rules ih =>
    intro grammar assembled
    exact ih _ (assembled.insert rule)

/-- Reading a grammar adds one rule after another, each made of the alternatives of its body. -/
theorem parse_induction {P : Grammar → Prop} {rules : List (Name × String)} {grammar : Grammar}
    (read : parse rules = .ok grammar) (start : P empty)
    (insert : ∀ before predecessor body rule, P before →
      Rule.ofAlternatives predecessor (Alternative.parseAll body) = .ok rule →
        P (before.insert rule)) : P grammar := by
  suffices general : ∀ before, P before →
      rules.foldlM (fun grammar entry =>
        (Rule.ofAlternatives entry.1 (Alternative.parseAll entry.2)).map grammar.insert) before =
          .ok grammar → P grammar from general empty start read
  clear read
  induction rules with
  | nil =>
    intro before given read
    cases read
    exact given
  | cons entry rules ih =>
    intro before given read
    simp only [List.foldlM_cons] at read
    cases made : Rule.ofAlternatives entry.1 (Alternative.parseAll entry.2) with
    | error error =>
      rw [made] at read
      cases read
    | ok rule =>
      rw [made] at read
      exact ih _ (insert before entry.1 entry.2 rule given made) read

/-- The grammar read from rule bodies is put together by adding the rules that are read. -/
theorem assembled_parse {rules : List (Name × String)} {grammar : Grammar}
    (read : parse rules = .ok grammar) : Assembled grammar :=
  parse_induction read .empty fun _ _ _ rule assembled _ => assembled.insert rule

theorem tidy_empty : Tidy empty := by
  refine ⟨?_, ?_, ?_, ?_⟩ <;> simp [empty]

/-! ### Declaring names -/

theorem mem_variableNames_declare {grammar : Grammar} {name other : Name} :
    other ∈ (grammar.declare name).variableNames ↔
      (name.isVariable = true ∧ name = other) ∨ other ∈ grammar.variableNames := by
  unfold declare
  split
  · rename_i spelled
    simp [spelled, Std.ExtTreeSet.mem_insert, Std.LawfulEqCmp.compare_eq_iff_eq]
  · rename_i spelled
    simp [spelled]

theorem mem_constantNames_declare {grammar : Grammar} {name other : Name} :
    other ∈ (grammar.declare name).constantNames ↔
      (name.isVariable = false ∧ name = other) ∨ other ∈ grammar.constantNames := by
  unfold declare
  split
  · rename_i spelled
    simp [spelled]
  · rename_i spelled
    simp [spelled, Std.ExtTreeSet.mem_insert, Std.LawfulEqCmp.compare_eq_iff_eq]

theorem declares_declare {grammar : Grammar} {name other : Name} :
    (grammar.declare name).Declares other ↔ name = other ∨ grammar.Declares other := by
  simp only [Declares, mem_variableNames_declare, mem_constantNames_declare]
  cases name.isVariable <;> simp <;> tauto

@[simp] theorem rules_declare (grammar : Grammar) (name : Name) :
    (grammar.declare name).rules = grammar.rules := by
  unfold declare
  split <;> rfl

theorem Tidy.declare {grammar : Grammar} (tidy : grammar.Tidy) (name : Name) :
    (grammar.declare name).Tidy where
  isVariable other member := by
    rcases mem_variableNames_declare.mp member with ⟨spelled, rfl⟩ | old
    · exact spelled
    · exact tidy.isVariable other old
  isConstant other member := by
    rcases mem_constantNames_declare.mp member with ⟨spelled, rfl⟩ | old
    · exact spelled
    · exact tidy.isConstant other old
  predecessor key rule stored := by
    rw [rules_declare] at stored
    exact tidy.predecessor key rule stored
  declared key rule stored other mentioned := by
    rw [rules_declare] at stored
    exact declares_declare.mpr (Or.inr (tidy.declared key rule stored other mentioned))

theorem Tidy.foldl_declare {grammar : Grammar} (tidy : grammar.Tidy) (names : List Name) :
    (names.foldl Grammar.declare grammar).Tidy := by
  induction names generalizing grammar with
  | nil => exact tidy
  | cons name names ih => exact ih (tidy.declare name)

theorem declares_foldl_declare {grammar : Grammar} {names : List Name} {other : Name} :
    (names.foldl declare grammar).Declares other ↔ other ∈ names ∨ grammar.Declares other := by
  induction names generalizing grammar with
  | nil => simp
  | cons name names ih =>
    rw [List.foldl_cons, ih, declares_declare, List.mem_cons, eq_comm (a := name)]
    tauto

/-! ### Adding rules -/

theorem rules_foldl_declare (grammar : Grammar) (names : List Name) :
    (names.foldl declare grammar).rules = grammar.rules := by
  induction names generalizing grammar with
  | nil => rfl
  | cons name names ih => rw [List.foldl_cons, ih, rules_declare]

/-- An added rule takes the place of the one stored for its predecessor. -/
theorem getElem?_rules_insert (grammar : Grammar) (rule : Rule) (key : Name) :
    (grammar.insert rule).rules[key]? =
      if rule.predecessor = key then some rule else grammar.rules[key]? := by
  simp [insert, rules_foldl_declare, Std.ExtTreeMap.getElem?_insert,
    Std.LawfulEqCmp.compare_eq_iff_eq]

theorem Tidy.insert {grammar : Grammar} (tidy : grammar.Tidy) (rule : Rule) :
    (grammar.insert rule).Tidy := by
  have declared := tidy.foldl_declare rule.references
  refine ⟨declared.isVariable, declared.isConstant, ?_, ?_⟩
  · intro key stored found
    rw [getElem?_rules_insert] at found
    split at found
    · rename_i same
      rw [← Option.some.inj found, same]
    · exact tidy.predecessor key stored found
  · intro key stored found name mentioned
    rw [getElem?_rules_insert] at found
    refine declares_foldl_declare.mpr ?_
    split at found
    · rw [← Option.some.inj found] at mentioned
      exact Or.inl mentioned
    · exact Or.inr (tidy.declared key stored found name mentioned)

/-- Whatever is put together by adding rules and declaring names is tidy. -/
theorem Assembled.tidy {grammar : Grammar} (assembled : grammar.Assembled) : grammar.Tidy := by
  induction assembled with
  | empty => exact tidy_empty
  | insert rule _ ih => exact ih.insert rule
  | declare name _ ih => exact ih.declare name

/-- Names of levels are variables, so that no constant of a tidy grammar names one. -/
theorem Tidy.ordinaryConstants {grammar : Grammar} (tidy : grammar.Tidy) :
    Alphabet.OrdinaryConstants grammar := by
  intro name constant
  cases counter : name.counter? with
  | none => rfl
  | some family =>
    obtain ⟨base, level⟩ := family
    have spelled := Name.isVariable_of_counter? counter
    rw [tidy.isConstant name constant] at spelled
    cases spelled

end Grammar

end Lindenmayer
