import Mathlib.Data.List.FinRange
import Lindenmayer.Proofs.Alphabet.Encoding
import Lindenmayer.Proofs.Grammar.Tidy

/-!
# Grammars made of lists of rules

A list of rules makes a grammar that stores the last rule for each predecessor and declares whatever
any of the rules mentions, those that were replaced included.  So two lists make the same grammar if
they are in the same order as far as rules for one predecessor go.
-/

namespace Lindenmayer

namespace Rule

/-- The rules of a list that are for one predecessor, in order. -/
def listFor (rules : List Rule) (name : Name) : List Rule :=
  rules.filter fun rule => rule.predecessor = name

/-- The second list is a permutation of the first that keeps rules for the same predecessor in
order. -/
def Reorders (rules rules' : List Rule) : Prop :=
  ∃ place : Fin rules'.length ≃ Fin rules.length,
    (∀ i, rules'[i] = rules[place i]) ∧
      ∀ i j, i < j → rules'[i].predecessor = rules'[j].predecessor → place i < place j

/-- The rule is what is read from a predecessor with a body. -/
structure IsReadFrom (entry : Name × String) (rule : Rule) : Prop where
  predecessor_eq : rule.predecessor = entry.1
  alternatives_eq : rule.alternatives = Alternative.parseAll entry.2

theorem listFor_cons (rule : Rule) (rules : List Rule) (name : Name) :
    listFor (rule :: rules) name =
      if rule.predecessor = name then rule :: listFor rules name else listFor rules name := by
  simp [listFor, List.filter_cons]

theorem mem_listFor {rules : List Rule} {name : Name} {rule : Rule} :
    rule ∈ listFor rules name ↔ rule ∈ rules ∧ rule.predecessor = name := by
  simp [listFor]

theorem ofAlternatives_of_ne_nil {alternatives : List Alternative} (nonempty : alternatives ≠ [])
    (predecessor : Name) :
    ofAlternatives predecessor alternatives = .ok ⟨predecessor, alternatives, nonempty⟩ := by
  cases alternatives with
  | nil => exact absurd rfl nonempty
  | cons first rest => rfl

theorem IsReadFrom.ofAlternatives_eq {entry : Name × String} {rule : Rule}
    (read : IsReadFrom entry rule) :
    ofAlternatives entry.1 (Alternative.parseAll entry.2) = .ok rule := by
  obtain ⟨predecessor, alternatives, nonempty⟩ := rule
  obtain ⟨rfl, rfl⟩ := read
  exact ofAlternatives_of_ne_nil nonempty _

/-- A body with an alternative in it is read as a rule. -/
theorem exists_isReadFrom {entry : Name × String} (nonempty : Alternative.parseAll entry.2 ≠ []) :
    ∃ rule, IsReadFrom entry rule :=
  ⟨⟨entry.1, _, nonempty⟩, rfl, rfl⟩

/-! ### Reordering -/

/-- The places of a list that hold rules for one predecessor. -/
def placesFor (rules : List Rule) (name : Name) : List (Fin rules.length) :=
  (List.finRange rules.length).filter fun i => rules[i].predecessor = name

theorem mem_placesFor {rules : List Rule} {name : Name} {i : Fin rules.length} :
    i ∈ placesFor rules name ↔ rules[i].predecessor = name := by
  simp [placesFor]

theorem pairwise_placesFor (rules : List Rule) (name : Name) :
    (placesFor rules name).Pairwise (· < ·) :=
  (List.pairwise_lt_finRange _).filter _

theorem listFor_eq_map (rules : List Rule) (name : Name) :
    listFor rules name = (placesFor rules name).map fun i => rules[i] := by
  have whole := List.map_getElem_finRange rules
  calc listFor rules name
      = ((List.finRange rules.length).map fun i => rules[i]).filter fun rule =>
          rule.predecessor = name := by rw [listFor]; exact congrArg _ whole.symm
    _ = (placesFor rules name).map fun i => rules[i] := List.filter_map

/-- A permutation that keeps rules for the same predecessor in order takes the places of these to
each other, one by one. -/
theorem map_placesFor {rules rules' : List Rule} {place : Fin rules'.length ≃ Fin rules.length}
    (moved : ∀ i, rules'[i] = rules[place i])
    (kept : ∀ i j, i < j → rules'[i].predecessor = rules'[j].predecessor → place i < place j)
    (name : Name) : (placesFor rules' name).map place = placesFor rules name := by
  have sorted : ((placesFor rules' name).map place).Pairwise (· < ·) := by
    refine List.pairwise_map.mpr ((pairwise_placesFor rules' name).imp_of_mem ?_)
    intro i j here there less
    exact kept i j less ((mem_placesFor.mp here).trans (mem_placesFor.mp there).symm)
  have sorted' := pairwise_placesFor rules name
  have same : ∀ i, i ∈ (placesFor rules' name).map place ↔ i ∈ placesFor rules name := by
    intro i
    rw [List.mem_map, mem_placesFor]
    constructor
    · rintro ⟨j, member, rfl⟩
      rw [← moved]
      exact mem_placesFor.mp member
    · intro isFor
      obtain ⟨j, rfl⟩ := place.surjective i
      exact ⟨j, mem_placesFor.mpr (by rw [moved, isFor]), rfl⟩
  have perm := (List.perm_ext_iff_of_nodup (sorted.imp ne_of_lt) (sorted'.imp ne_of_lt)).mpr same
  exact perm.eq_of_pairwise (fun _ _ _ _ less greater => absurd greater (lt_asymm less))
    sorted sorted'

/-- Reordering leaves the rules for one predecessor as they are. -/
theorem Reorders.listFor_eq {rules rules' : List Rule} (reorders : Reorders rules rules')
    (name : Name) : listFor rules' name = listFor rules name := by
  obtain ⟨place, moved, kept⟩ := reorders
  rw [listFor_eq_map, listFor_eq_map, ← map_placesFor moved kept, List.map_map]
  exact List.map_congr_left fun i _ => moved i

theorem Reorders.mem_iff {rules rules' : List Rule} (reorders : Reorders rules rules')
    {rule : Rule} : rule ∈ rules' ↔ rule ∈ rules := by
  have same := reorders.listFor_eq rule.predecessor
  have here : rule ∈ listFor rules rule.predecessor ↔ _ := mem_listFor
  have there : rule ∈ listFor rules' rule.predecessor ↔ _ := mem_listFor
  rw [same] at there
  simpa using there.symm.trans here

end Rule

namespace Grammar

/-! ### What is stored -/

/-- Of the rules that are added, the last one for a predecessor is stored. -/
theorem getElem?_rules_foldl_insert (rules : List Rule) (grammar : Grammar) (name : Name) :
    (rules.foldl insert grammar).rules[name]? =
      (Rule.listFor rules name).getLast?.or grammar.rules[name]? := by
  induction rules generalizing grammar with
  | nil => rfl
  | cons rule rest ih =>
    rw [List.foldl_cons, ih, getElem?_rules_insert, Rule.listFor_cons]
    by_cases same : rule.predecessor = name
    · rw [if_pos same, if_pos same, List.getLast?_cons]
      cases (Rule.listFor rest name).getLast? <;> rfl
    · rw [if_neg same, if_neg same]

theorem getElem?_rules_ofRules (rules : List Rule) (name : Name) :
    (ofRules rules).rules[name]? = (Rule.listFor rules name).getLast? := by
  rw [ofRules, getElem?_rules_foldl_insert]
  simp [empty]

/-! ### What is declared -/

theorem declares_insert {grammar : Grammar} {rule : Rule} {name : Name} :
    (grammar.insert rule).Declares name ↔ name ∈ rule.references ∨ grammar.Declares name :=
  declares_foldl_declare

theorem declares_foldl_insert {rules : List Rule} {grammar : Grammar} {name : Name} :
    (rules.foldl insert grammar).Declares name ↔
      (∃ rule ∈ rules, name ∈ rule.references) ∨ grammar.Declares name := by
  induction rules generalizing grammar with
  | nil => simp
  | cons rule rest ih =>
    rw [List.foldl_cons, ih, declares_insert, List.exists_mem_cons_iff, or_left_comm, or_assoc]

theorem declares_ofRules {rules : List Rule} {name : Name} :
    (ofRules rules).Declares name ↔ ∃ rule ∈ rules, name ∈ rule.references := by
  rw [ofRules, declares_foldl_insert]
  simp [Declares, empty]

/-- A tidy grammar sorts the names that it declares by their spelling. -/
theorem Tidy.mem_variableNames_iff {grammar : Grammar} (tidy : grammar.Tidy) {name : Name} :
    name ∈ grammar.variableNames ↔ name.isVariable = true ∧ grammar.Declares name := by
  constructor
  · exact fun member => ⟨tidy.isVariable name member, Or.inl member⟩
  · rintro ⟨spelled, declared | constant⟩
    · exact declared
    · rw [tidy.isConstant name constant] at spelled
      cases spelled

theorem Tidy.mem_constantNames_iff {grammar : Grammar} (tidy : grammar.Tidy) {name : Name} :
    name ∈ grammar.constantNames ↔ name.isVariable = false ∧ grammar.Declares name := by
  constructor
  · exact fun member => ⟨tidy.isConstant name member, Or.inr member⟩
  · rintro ⟨spelled, declared | constant⟩
    · rw [tidy.isVariable name declared] at spelled
      cases spelled
    · exact constant

theorem tidy_ofRules (rules : List Rule) : (ofRules rules).Tidy := (assembled_ofRules rules).tidy

theorem mem_variableNames_ofRules {rules : List Rule} {name : Name} :
    name ∈ (ofRules rules).variableNames ↔
      name.isVariable = true ∧ ∃ rule ∈ rules, name ∈ rule.references := by
  rw [(tidy_ofRules rules).mem_variableNames_iff, declares_ofRules]

theorem mem_constantNames_ofRules {rules : List Rule} {name : Name} :
    name ∈ (ofRules rules).constantNames ↔
      name.isVariable = false ∧ ∃ rule ∈ rules, name ∈ rule.references := by
  rw [(tidy_ofRules rules).mem_constantNames_iff, declares_ofRules]

/-- The order of rules for different predecessors makes no difference to the grammar. -/
theorem ofRules_eq_of_reorders {rules rules' : List Rule} (reorders : Rule.Reorders rules rules') :
    ofRules rules' = ofRules rules := by
  have variableNames : (ofRules rules').variableNames = (ofRules rules).variableNames := by
    refine Std.ExtTreeSet.ext_mem fun name => ?_
    simp only [mem_variableNames_ofRules, reorders.mem_iff]
  have constantNames : (ofRules rules').constantNames = (ofRules rules).constantNames := by
    refine Std.ExtTreeSet.ext_mem fun name => ?_
    simp only [mem_constantNames_ofRules, reorders.mem_iff]
  have rules : (ofRules rules').rules = (ofRules rules).rules := by
    refine Std.ExtTreeMap.ext_getElem? fun name => ?_
    rw [getElem?_rules_ofRules, getElem?_rules_ofRules, reorders.listFor_eq]
  exact (Grammar.mk.injEq ..).mpr ⟨variableNames, constantNames, rules⟩

/-! ### What is read -/

/-- Adds the rule that is read from a predecessor with a body. -/
def addRead (grammar : Grammar) (entry : Name × String) : Except Error Grammar :=
  (Rule.ofAlternatives entry.1 (Alternative.parseAll entry.2)).map grammar.insert

theorem parse_eq_foldlM (entries : List (Name × String)) :
    parse entries = entries.foldlM addRead empty := rfl

theorem foldlM_addRead_eq_ok {entries : List (Name × String)} {rules : List Rule}
    (read : List.Forall₂ Rule.IsReadFrom entries rules) (grammar : Grammar) :
    entries.foldlM addRead grammar = .ok (rules.foldl insert grammar) := by
  induction read generalizing grammar with
  | nil => rfl
  | cons head _ ih =>
    rw [List.foldlM_cons, addRead, head.ofAlternatives_eq]
    exact ih _

/-- Rules are added until there is a body in which no alternative survives. -/
theorem foldlM_addRead_eq_error {entries : List (Name × String)} {entry : Name × String}
    (first : IsFirst (fun entry => Alternative.parseAll entry.2 = []) entries entry)
    (grammar : Grammar) : entries.foldlM addRead grammar = .error (.emptyRule entry.1) := by
  induction first generalizing grammar with
  | head isEmpty =>
    rw [List.foldlM_cons, addRead, isEmpty]
    rfl
  | tail nonempty _ ih =>
    rw [List.foldlM_cons, addRead, Rule.ofAlternatives_of_ne_nil nonempty]
    exact ih _

/-- If an alternative survives in every body, the grammar is the one made of the rules that are
read. -/
theorem exists_parse_eq_ok {entries : List (Name × String)}
    (nonempty : ∀ entry ∈ entries, Alternative.parseAll entry.2 ≠ []) :
    ∃ rules, List.Forall₂ Rule.IsReadFrom entries rules ∧ parse entries = .ok (ofRules rules) := by
  obtain ⟨rules, read⟩ := exists_forall₂ fun entry member =>
    Rule.exists_isReadFrom (nonempty entry member)
  exact ⟨rules, read, (parse_eq_foldlM entries).trans (foldlM_addRead_eq_ok read empty)⟩

/-- Otherwise the first body in which none survives is an error. -/
theorem parse_eq_error {entries : List (Name × String)} {entry : Name × String}
    (first : IsFirst (fun entry => Alternative.parseAll entry.2 = []) entries entry) :
    parse entries = .error (.emptyRule entry.1) :=
  (parse_eq_foldlM entries).trans (foldlM_addRead_eq_error first empty)

end Grammar

end Lindenmayer
