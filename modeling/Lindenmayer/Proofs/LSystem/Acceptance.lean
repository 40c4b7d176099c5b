import Lindenmayer.Proofs.LSystem.Failures

/-!
# Every tidy grammar compiles

Adding rules and declaring names keeps a grammar in order, and a grammar in order mentions and
stores nothing that is not declared.  So it compiles from every declared start name, unless it has
more ordinary names than there are symbols.
-/

namespace Lindenmayer

namespace Grammar

variable {grammar : Grammar}

/-- A rule of the table is stored under its own predecessor, which it mentions first. -/
theorem Tidy.declares_key (tidy : grammar.Tidy) {key : Name} {rule : Rule}
    (stored : grammar.rules[key]? = some rule) : grammar.Declares key := by
  have mentioned : rule.predecessor ∈ rule.references := List.mem_cons_self
  rw [tidy.predecessor key rule stored] at mentioned
  exact tidy.declared key rule stored key mentioned

theorem Tidy.closed (tidy : grammar.Tidy) : grammar.Closed := by
  intro rule listed name mentioned
  obtain ⟨⟨key, _⟩, member, rfl⟩ := List.mem_map.mp listed
  have stored := Std.ExtTreeMap.mem_toList_iff_getElem?_eq_some.mp member
  exact .declared (tidy.declared key _ stored name mentioned)

theorem Tidy.accepted (tidy : grammar.Tidy) (room : grammar.HasRoom) {start : Name}
    (known : grammar.Knows start) : grammar.Accepted start where
  room := room
  closed := tidy.closed
  start := known
  keys _ member :=
    .declared (tidy.declares_key (Std.ExtTreeMap.mem_toList_iff_getElem?_eq_some.mp member))

end Grammar

namespace LSystem

/-- What is put together from nothing by adding rules and declaring names is in order, and whatever
is read or made of a list of rules is put together that way.  Such a grammar compiles from every
declared name and from the empty one, with tables and without, as long as there is room for its
ordinary names; otherwise the lack of room is the error. -/
theorem compile_assembled :
    (∀ rules, (Grammar.ofRules rules).Assembled) ∧
    (∀ rules grammar, Grammar.parse rules = .ok grammar → grammar.Assembled) ∧
    ∀ grammar : Grammar, grammar.Assembled →
      (∀ name ∈ grammar.variableNames, name.isVariable = true) ∧
      (∀ name ∈ grammar.constantNames, name.isVariable = false) ∧
      (∀ (key : Name) (rule : Rule), grammar.rules[key]? = some rule →
        rule.predecessor = key ∧ rule.alternatives ≠ [] ∧
          ∀ name ∈ rule.references, grammar.Declares name) ∧
      ∀ start tabulate, grammar.Declares start ∨ start = Name.empty →
        (grammar.HasRoom ∧ ∃ system, compile start grammar tabulate = .ok system) ∨
        (¬grammar.HasRoom ∧ compile start grammar tabulate = .error .alphabetOverflow) := by
  refine ⟨Grammar.assembled_ofRules, fun _ _ => Grammar.assembled_parse, ?_⟩
  intro grammar assembled
  have tidy := assembled.tidy
  refine ⟨tidy.isVariable, tidy.isConstant, ?rules, ?compiles⟩
  case rules =>
    intro key rule stored
    exact ⟨tidy.predecessor key rule stored, rule.alternatives_ne_nil,
      tidy.declared key rule stored⟩
  case compiles =>
    intro start tabulate given
    by_cases room : grammar.HasRoom
    · have known : grammar.Knows start := by
        rcases given with declared | rfl
        · exact .declared declared
        · exact .boundary
      exact Or.inl ⟨room, exists_compile_of_accepted (tidy.accepted room known) tabulate⟩
    · exact Or.inr ⟨room, compile_of_refused (.overflow room)⟩

/-- A replaced rule leaves its names behind, and a level is spelled with a zero in front. -/
theorem compile_assembled_read :
    ∃ grammar, Grammar.parse [(⟨"Seed"⟩, "1 L u S03"), (⟨"S1"⟩, "0.5 *S2 X; x"), (⟨"S1"⟩, "2 Y_")] =
        .ok grammar ∧
      grammar.Assembled ∧ grammar.Declares ⟨"S03"⟩ ∧ grammar.HasRoom ∧
      ∃ system, compile ⟨"S03"⟩ grammar true = .ok system := by
  have evaluated : (Grammar.parse [(⟨"Seed"⟩, "1 L u S03"), (⟨"S1"⟩, "0.5 *S2 X; x"),
      (⟨"S1"⟩, "2 Y_")]).toOption.map (fun grammar =>
        (grammar.variableNames.contains ⟨"S03"⟩, grammar.plainNames.length)) =
      some (true, 7) := by decide +kernel
  obtain ⟨grammar, made, read⟩ := exists_ok_of_toOption_map evaluated
  obtain ⟨declared, size⟩ : ⟨"S03"⟩ ∈ grammar.variableNames ∧ grammar.plainNames.length = 7 := by
    simpa using read
  have room : grammar.HasRoom := by
    rw [Grammar.HasRoom, size]
    decide
  have assembled := compile_assembled.2.1 _ _ made
  obtain ⟨-, -, -, compiles⟩ := compile_assembled.2.2 grammar assembled
  refine ⟨grammar, made, assembled, Or.inl declared, room, ?_⟩
  rcases compiles ⟨"S03"⟩ true (Or.inl (Or.inl declared)) with ⟨-, compiled⟩ | ⟨full, -⟩
  · exact compiled
  · exact absurd room full

end LSystem

end Lindenmayer
