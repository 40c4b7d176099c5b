import Lindenmayer.Proofs.Alphabet.Known
import Lindenmayer.Proofs.LSystem.Productions

/-!
# Why a grammar does not compile

A grammar is refused for one of four reasons, looked for in this order: its ordinary names do not
fit, a rule mentions a name that has no symbol, the start name has none, or a rule is stored under a
name that has none.  Everything else compiles.
-/

namespace Lindenmayer

namespace Grammar

/-- Every name that a rule mentions is known. -/
def Closed (grammar : Grammar) : Prop :=
  ∀ rule ∈ grammar.rules.toList.map Prod.snd, ∀ name ∈ rule.references, grammar.Knows name

/-- The ordinary names get a symbol each. -/
def HasRoom (grammar : Grammar) : Prop := grammar.plainNames.length ≤ maxPlainSymbols

/-- Growth from a start name is refused with an error.  Rules are gone through in the order of the
names they are stored under, and the names of a rule in the order it mentions them. -/
inductive Refused (grammar : Grammar) (start : Name) : Error → Prop
  | overflow : ¬grammar.HasRoom → Refused grammar start .alphabetOverflow
  | reference {rule : Rule} {name : Name} : grammar.HasRoom →
    IsFirst (fun rule => ∃ name ∈ rule.references, ¬grammar.Knows name)
      (grammar.rules.toList.map Prod.snd) rule →
    IsFirst (fun name => ¬grammar.Knows name) rule.references name →
      Refused grammar start (.undeclaredSymbol rule.predecessor name)
  | start : grammar.HasRoom → grammar.Closed → ¬grammar.Knows start →
    Refused grammar start (.unknownAxiom start)
  | key {key : Name} {rule : Rule} : grammar.HasRoom → grammar.Closed → grammar.Knows start →
    IsFirst (fun entry => ¬grammar.Knows entry.1) grammar.rules.toList (key, rule) →
      Refused grammar start (.undeclaredSymbol key key)

/-- Growth from a start name is possible. -/
structure Accepted (grammar : Grammar) (start : Name) : Prop where
  room : grammar.HasRoom
  closed : grammar.Closed
  start : grammar.Knows start
  keys : ∀ entry ∈ grammar.rules.toList, grammar.Knows entry.1

/-- A grammar is accepted or refused, whatever it holds. -/
theorem accepted_or_refused (grammar : Grammar) (start : Name) :
    grammar.Accepted start ∨ ∃ error, grammar.Refused start error := by
  by_cases room : grammar.HasRoom
  case neg => exact Or.inr ⟨_, .overflow room⟩
  by_cases closed : grammar.Closed
  case neg =>
    have stray : ∃ rule ∈ grammar.rules.toList.map Prod.snd,
        ∃ name ∈ rule.references, ¬grammar.Knows name := by simpa [Closed] using closed
    obtain ⟨rule, firstRule⟩ := exists_isFirst stray
    obtain ⟨name, firstName⟩ := exists_isFirst firstRule.holds
    exact Or.inr ⟨_, .reference room firstRule firstName⟩
  by_cases known : grammar.Knows start
  case neg => exact Or.inr ⟨_, .start room closed known⟩
  by_cases keys : ∀ entry ∈ grammar.rules.toList, grammar.Knows entry.1
  case neg =>
    have stray : ∃ entry ∈ grammar.rules.toList, ¬grammar.Knows entry.1 := by
      simpa only [not_forall, exists_prop] using keys
    obtain ⟨⟨key, rule⟩, first⟩ := exists_isFirst stray
    exact Or.inr ⟨_, .key room closed known first⟩
  exact Or.inl ⟨room, closed, known, keys⟩

end Grammar

/-! ### Building the alphabet -/

namespace Alphabet

/-- The check of references reports the first name that is not known of the first rule with one. -/
theorem undeclared?_of_isFirst {symbols : NameMap Symbol} {rules : List Rule} {rule : Rule}
    {name : Name}
    (firstRule : IsFirst (fun rule => ∃ name ∈ rule.references, ¬symbols.contains name = true)
      rules rule)
    (firstName : IsFirst (fun name => ¬symbols.contains name = true) rule.references name) :
    undeclared? symbols rules = some (.undeclaredSymbol rule.predecessor name) := by
  induction firstRule with
  | @head rule =>
    have found : rule.references.find? (fun name => !symbols.contains name) = some name := by
      simpa only [find?_eq_some_iff_isFirst, Bool.not_eq_true, Bool.not_eq_true'] using firstName
    simp [undeclared?, found]
  | @tail _ other rules passes _ ih =>
    have allKnown : other.references.find? (fun name => !symbols.contains name) = none := by
      simpa using passes
    simpa [undeclared?, allKnown] using ih firstName

variable {grammar : Grammar}

theorem contains_symbols_iff (fits : Fits grammar) {name : Name} :
    (assemble grammar).symbols.contains name = true ↔ grammar.Knows name := by
  rw [← exists_symbol?_iff_knows fits, Std.ExtTreeMap.contains_eq_isSome_getElem?,
    Option.isSome_iff_exists]
  rfl

theorem build_of_not_hasRoom (overflow : ¬grammar.HasRoom) :
    build grammar = .error .alphabetOverflow :=
  build_eq_overflow_iff.mpr (mt fits_iff.mp overflow)

theorem build_of_isFirst (room : grammar.HasRoom) {rule : Rule} {name : Name}
    (firstRule : IsFirst (fun rule => ∃ name ∈ rule.references, ¬grammar.Knows name)
      (grammar.rules.toList.map Prod.snd) rule)
    (firstName : IsFirst (fun name => ¬grammar.Knows name) rule.references name) :
    build grammar = .error (.undeclaredSymbol rule.predecessor name) := by
  have fits := fits_iff.mpr room
  simp only [← contains_symbols_iff fits] at firstRule firstName
  rw [build_eq, size_plainRegistry, if_neg (Nat.not_lt.mpr room),
    undeclared?_of_isFirst firstRule firstName]

theorem build_of_closed (room : grammar.HasRoom) (closed : grammar.Closed) :
    build grammar = .ok (assemble grammar) := by
  have fits := fits_iff.mpr room
  refine build_eq_ok_iff.mpr ⟨fits, ?_, rfl⟩
  intro rule member name mentioned
  rw [Option.isSome_iff_exists]
  exact exists_symbol?_of_knows fits (closed rule member name mentioned)

/-- What is known once an alphabet has been built. -/
theorem closed_of_build {alphabet : Alphabet} (built : build grammar = .ok alphabet) :
    grammar.HasRoom ∧ grammar.Closed ∧ assemble grammar = alphabet := by
  obtain ⟨fits, known, equal⟩ := build_eq_ok_iff.mp built
  refine ⟨fits_iff.mp fits, ?_, equal⟩
  intro rule member name mentioned
  obtain ⟨symbol, lookup⟩ := Option.isSome_iff_exists.mp (known rule member name mentioned)
  exact knows_of_symbol? fits lookup

end Alphabet

/-! ### Compiling the rules -/

section

variable {grammar : Grammar} (fits : Alphabet.Fits grammar)
include fits

theorem Choice.exists_compiles {alternative : Alternative}
    (known : ∀ name ∈ alternative.references, grammar.Knows name) :
    ∃ choice, Choice.Compiles (Alphabet.assemble grammar) alternative choice := by
  have means : ∀ name ∈ alternative.references,
      ∃ symbol, (Alphabet.assemble grammar).Means name symbol :=
    fun name member => Alphabet.exists_symbol?_of_knows fits (known name member)
  obtain ⟨successors, related⟩ := exists_forall₂ fun name member =>
    means name (List.mem_append_right _ member)
  cases catalyst : alternative.catalyst with
  | none => exact ⟨⟨_, none, successors⟩, rfl, by rw [catalyst]; exact .none, related⟩
  | some name =>
    have mentioned : name ∈ alternative.references := by simp [Alternative.references, catalyst]
    obtain ⟨symbol, lookup⟩ := means name mentioned
    exact ⟨⟨_, some symbol, successors⟩, rfl, by rw [catalyst]; exact .some lookup, related⟩

/-- A rule that mentions only known names compiles. -/
theorem Production.exists_ofRule {rule : Rule}
    (known : ∀ name ∈ rule.references, grammar.Knows name) (tabulate : Bool) :
    ∃ production, ofRule (Alphabet.assemble grammar) tabulate rule = .ok production := by
  have each : ∀ alternative ∈ rule.alternatives,
      ∃ choice, Choice.Compiles (Alphabet.assemble grammar) alternative choice := by
    intro alternative member
    refine Choice.exists_compiles fits fun name mentioned => known name ?_
    exact List.mem_cons_of_mem _ (List.mem_flatMap.mpr ⟨alternative, member, mentioned⟩)
  obtain ⟨choices, compiles⟩ := exists_forall₂ each
  exact ⟨_, ofRule_eq_ok_iff.mpr ⟨choices, compiles, rfl⟩⟩

end

namespace LSystem

variable {grammar : Grammar} {start : Name} {tabulate : Bool}

/-- Among closed rules, only the name that one is stored under can stop it from compiling. -/
theorem compileRule_eq_error_iff (room : grammar.HasRoom) (closed : grammar.Closed)
    {entry : Name × Rule} (member : entry ∈ grammar.rules.toList) {error : Error} :
    compileRule (Alphabet.assemble grammar) tabulate entry = .error error ↔
      ¬grammar.Knows entry.1 ∧ error = .undeclaredSymbol entry.1 entry.1 := by
  have fits := Alphabet.fits_iff.mpr room
  have mentioned := closed entry.2 (List.mem_map_of_mem member)
  obtain ⟨production, made⟩ := Production.exists_ofRule fits mentioned tabulate
  rw [← Alphabet.symbol?_eq_none_iff fits, compileRule]
  cases (Alphabet.assemble grammar).symbol? entry.1 with
  | none => simp [eq_comm]
  | some symbol => simp [made, Except.map]

theorem compile_of_build_error {error : Error}
    (refused : Alphabet.build grammar = .error error) :
    compile start grammar tabulate = .error error := by
  rw [compile, refused]
  rfl

/-- Every reason for refusing a grammar is reported. -/
theorem compile_of_refused {error : Error} (refused : grammar.Refused start error) :
    compile start grammar tabulate = .error error := by
  cases refused with
  | overflow overflow => exact compile_of_build_error (Alphabet.build_of_not_hasRoom overflow)
  | reference room firstRule firstName =>
    exact compile_of_build_error (Alphabet.build_of_isFirst room firstRule firstName)
  | start room closed unknown =>
    have lookup := (Alphabet.symbol?_eq_none_iff (Alphabet.fits_iff.mpr room)).mpr unknown
    simp only [compile, Alphabet.build_of_closed room closed, bind, Except.bind, lookup]
    rfl
  | @key key rule room closed known first =>
    obtain ⟨symbol, lookup⟩ :=
      Alphabet.exists_symbol?_of_knows (Alphabet.fits_iff.mpr room) known
    have failed : grammar.rules.toList.mapM (compileRule (Alphabet.assemble grammar) tabulate) =
        .error (.undeclaredSymbol key key) := by
      refine mapM_eq_error_iff.mpr ⟨(key, rule), first.congr ?_, ?_⟩
      · intro entry member
        simp [compileRule_eq_error_iff room closed member]
      · exact (compileRule_eq_error_iff room closed first.mem).mpr ⟨first.holds, rfl⟩
    simp only [compile, Alphabet.build_of_closed room closed, bind, Except.bind, lookup, failed]

/-- Whatever is accepted compiles. -/
theorem exists_compile_of_accepted (accepted : grammar.Accepted start) (tabulate : Bool) :
    ∃ system, compile start grammar tabulate = .ok system := by
  obtain ⟨room, closed, known, keys⟩ := accepted
  obtain ⟨symbol, lookup⟩ := Alphabet.exists_symbol?_of_knows (Alphabet.fits_iff.mpr room) known
  cases rules : grammar.rules.toList.mapM (compileRule (Alphabet.assemble grammar) tabulate) with
  | error error =>
    obtain ⟨entry, first, failed⟩ := mapM_eq_error_iff.mp rules
    have unknown := ((compileRule_eq_error_iff room closed first.mem).mp failed).1
    exact absurd (keys entry first.mem) unknown
  | ok entries =>
    simp only [compile, Alphabet.build_of_closed room closed, bind, Except.bind, lookup, rules]
    exact ⟨_, rfl⟩

theorem compile_eq_error_iff {error : Error} :
    compile start grammar tabulate = .error error ↔ grammar.Refused start error := by
  constructor
  · intro failed
    rcases grammar.accepted_or_refused start with accepted | ⟨other, refused⟩
    · obtain ⟨system, compiled⟩ := exists_compile_of_accepted accepted tabulate
      rw [compiled] at failed
      cases failed
    · rw [compile_of_refused refused] at failed
      cases failed
      exact refused
  · exact compile_of_refused

theorem exists_compile_iff :
    (∃ system, compile start grammar tabulate = .ok system) ↔ grammar.Accepted start := by
  constructor
  · intro ⟨system, compiled⟩
    rcases grammar.accepted_or_refused start with accepted | ⟨error, refused⟩
    · exact accepted
    · rw [compile_of_refused refused] at compiled
      cases compiled
  · intro accepted
    exact exists_compile_of_accepted accepted tabulate

end LSystem

end Lindenmayer
