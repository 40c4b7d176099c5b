import Lindenmayer.Proofs.Alphabet.RoundTrip
import Lindenmayer.Proofs.Grammar.Printing
import Lindenmayer.Proofs.LSystem.Productions

/-!
# The listing of a compiled grammar

A compiled grammar lists its productions slot by slot, with names in place of symbols.  Levels are
listed in plain decimal, and rules that were overwritten are missing; but reading a listed body, and
putting in the symbols that its names mean, leads back to the choices of the production.
-/

namespace Lindenmayer

/-! ### Names in plain decimal -/

namespace Name

theorem head?_canonical (name : Name) : name.canonical.chars.head? = name.chars.head? := by
  cases found : name.counter? with
  | none => rw [canonical_of_counter?_eq_none found]
  | some family =>
    obtain ⟨base, level⟩ := family
    obtain ⟨isBase, digits, -, -, spelled, -⟩ := counter?_eq_some_iff.mp found
    have nonempty : base.chars ≠ [] := by
      intro empty
      have capital := isBase.spelled
      rw [empty] at capital
      cases capital
    rw [canonical_of_counter? found, chars_atLevel, spelled,
      List.head?_append_of_ne_nil _ nonempty, List.head?_append_of_ne_nil _ nonempty]

/-- The characters of a level separate nothing. -/
theorem digits_separate_nothing (level : UInt8) :
    ∀ c ∈ Nat.toDigits 10 level.toNat, Text.isBlank c = false ∧ c ≠ ';' :=
  fun _ member => Decimal.separates_nothing
    (Or.inl (Nat.isDigit_of_mem_toDigits (by decide) (by decide) member))

theorem isField_atLevel {base : Name} (unbroken : ∀ c ∈ base.chars, Text.isBlank c = false)
    (level : UInt8) : Text.IsField (base.atLevel level).chars := by
  rw [chars_atLevel]
  refine ⟨by simp [Nat.toDigits_ne_nil], List.forall_mem_append.mpr ⟨unbroken, ?_⟩⟩
  exact fun c member => (digits_separate_nothing level c member).1

theorem isField_canonical {name : Name} (isField : Text.IsField name.chars) :
    Text.IsField name.canonical.chars := by
  cases found : name.counter? with
  | none => rwa [canonical_of_counter?_eq_none found]
  | some family =>
    obtain ⟨base, level⟩ := family
    obtain ⟨-, digits, -, -, spelled, -⟩ := counter?_eq_some_iff.mp found
    obtain ⟨-, unbroken⟩ := isField
    rw [spelled] at unbroken
    rw [canonical_of_counter? found]
    exact isField_atLevel (fun c member => unbroken c (List.mem_append_left _ member)) level

/-- Putting the level into plain decimal leaves a name writable. -/
theorem IsWritable.canonical {name : Name} (writable : name.IsWritable) :
    name.canonical.IsWritable := by
  refine ⟨isField_canonical writable.field, ?_⟩
  cases found : name.counter? with
  | none =>
    rw [canonical_of_counter?_eq_none found]
    exact writable.undivided
  | some family =>
    obtain ⟨base, level⟩ := family
    obtain ⟨-, digits, -, -, spelled, -⟩ := counter?_eq_some_iff.mp found
    have undivided := writable.undivided
    rw [spelled] at undivided
    rw [canonical_of_counter? found, chars_atLevel, List.mem_append, not_or]
    exact ⟨fun member => undivided (List.mem_append_left _ member),
      fun member => (digits_separate_nothing level _ member).2 rfl⟩

end Name

namespace Alternative

/-- The alternative with all levels in plain decimal. -/
def canonical (alternative : Alternative) : Alternative :=
  ⟨alternative.weight, alternative.catalyst.map Name.canonical,
    alternative.successors.map Name.canonical⟩

theorem WellFormed.canonical {alternative : Alternative} (wellFormed : alternative.WellFormed) :
    alternative.canonical.WellFormed := by
  obtain ⟨weight, names, unmarked⟩ := wellFormed
  refine ⟨weight, ?_, ?_⟩
  · intro name mentioned
    have listed : name ∈ alternative.references.map Name.canonical := by
      cases catalyst : alternative.catalyst <;>
        simpa [references, Alternative.canonical, catalyst] using mentioned
    obtain ⟨spelling, inside, rfl⟩ := List.mem_map.mp listed
    exact (names spelling inside).canonical
  · intro noCatalyst name rest successors
    obtain ⟨spelling, later, same, rfl, -⟩ := List.map_eq_cons_iff.mp successors
    rw [Name.head?_canonical]
    exact unmarked (Option.map_eq_none_iff.mp noCatalyst) spelling later same

end Alternative

/-! ### Rules that were read -/

/-- All alternatives of a grammar that was read are well formed. -/
theorem Grammar.wellFormed_of_parse {rules : List (Name × String)} {grammar : Grammar}
    (read : parse rules = .ok grammar) {key : Name} {rule : Rule}
    (stored : grammar.rules[key]? = some rule) :
    ∀ alternative ∈ rule.alternatives, alternative.WellFormed := by
  refine parse_induction (P := fun grammar => ∀ (key : Name) (rule : Rule),
    grammar.rules[key]? = some rule → ∀ alternative ∈ rule.alternatives, alternative.WellFormed)
    read ?_ ?_ key rule stored
  · simp [empty]
  · intro before predecessor body added given made key rule stored
    rw [getElem?_rules_insert] at stored
    split at stored
    · obtain rfl := Option.some.inj stored
      rw [(Rule.of_ofAlternatives made).2]
      exact fun alternative member => Alternative.wellFormed_of_mem_parseAll member
    · exact given key rule stored

namespace LSystem

section

variable {start : Name} {grammar : Grammar} {tabulate : Bool} {system : LSystem}
  {entries : List (Symbol × Production)}
  (compiles : Compiles start grammar tabulate system entries)
  (constants : Alphabet.OrdinaryConstants grammar)
include compiles constants

theorem Compiles.name?_of_means {name : Name} {symbol : Symbol}
    (means : system.alphabet.Means name symbol) :
    system.alphabet.name? symbol = some name.canonical := by
  rw [compiles.alphabet_eq] at means ⊢
  exact Alphabet.name?_of_symbol? compiles.fits constants means

/-- Putting names for the symbols of a choice leads back to its alternative, in plain decimal. -/
theorem Compiles.named_eq {alternative : Alternative} {choice : Choice}
    (compiled : Choice.Compiles system.alphabet alternative choice) :
    system.named choice = alternative.canonical := by
  obtain ⟨weight, catalyst, successors⟩ := alternative
  obtain ⟨weight', catalyst', successors'⟩ := choice
  obtain ⟨sameWeight, catalysts, words⟩ := compiled
  dsimp only at sameWeight catalysts words
  have name : ∀ {name symbol}, system.alphabet.Means name symbol →
      (system.alphabet.name? symbol).getD Name.empty = name.canonical := by
    intro name symbol means
    rw [compiles.name?_of_means constants means, Option.getD_some]
  simp only [named, Alternative.canonical, sameWeight, Alternative.mk.injEq, true_and]
  constructor
  · cases catalysts with
    | none => rfl
    | some means => simp only [Option.map_some, name means]
  · rw [← List.forall₂_eq_eq_eq, List.forall₂_map_left_iff, List.forall₂_map_right_iff]
    exact words.flip.imp fun _ _ means => name means

/-- The alternative in plain decimal becomes the same choice. -/
theorem Compiles.compiles_canonical {alternative : Alternative} {choice : Choice}
    (compiled : Choice.Compiles system.alphabet alternative choice) :
    Choice.Compiles system.alphabet alternative.canonical choice := by
  obtain ⟨weight, catalyst, successors⟩ := alternative
  obtain ⟨weight', catalyst', successors'⟩ := choice
  obtain ⟨sameWeight, catalysts, words⟩ := compiled
  dsimp only at sameWeight catalysts words
  have means : ∀ name symbol, system.alphabet.Means name symbol →
      system.alphabet.Means name.canonical symbol := by
    intro name symbol means
    rw [compiles.alphabet_eq] at means ⊢
    exact Alphabet.symbol?_canonical compiles.fits constants means
  refine ⟨sameWeight, ?_, List.forall₂_map_left_iff.mpr (words.imp means)⟩
  cases catalysts with
  | none => exact .none
  | some known => exact .some (means _ _ known)

/-- A listed body is read as alternatives that become the choices of the production. -/
theorem Compiles.forall₂_parseAll
    (wellFormed : ∀ (key : Name) (rule : Rule), grammar.rules[key]? = some rule →
      ∀ alternative ∈ rule.alternatives, alternative.WellFormed)
    {symbol : Symbol} {production : Production}
    (found : system.production? symbol = some production) :
    List.Forall₂ (Choice.Compiles system.alphabet)
      (Alternative.parseAll (Alternative.textAll (production.choices.toList.map system.named)))
      production.choices.toList := by
  obtain ⟨⟨key, rule⟩, listed, -, choices, related, rfl⟩ := compiles.production?_eq_some found
  have stored := Std.ExtTreeMap.mem_toList_iff_getElem?_eq_some.mp listed
  have names : choices.map system.named = rule.alternatives.map Alternative.canonical := by
    rw [← List.forall₂_eq_eq_eq, List.forall₂_map_left_iff, List.forall₂_map_right_iff]
    exact related.flip.imp fun _ _ compiled => compiles.named_eq constants compiled
  have canonical : ∀ alternative ∈ rule.alternatives.map Alternative.canonical,
      alternative.WellFormed := by
    intro alternative member
    obtain ⟨given, inside, rfl⟩ := List.mem_map.mp member
    exact (wellFormed key rule stored given inside).canonical
  rw [Production.ofChoices, List.toList_toArray, names, Alternative.parseAll_textAll canonical,
    List.forall₂_map_left_iff]
  exact related.imp fun _ _ compiled => compiles.compiles_canonical constants compiled

omit constants in
/-- The rules listed are those of the symbols with a production, under their names. -/
theorem Compiles.mem_rules {symbol : Symbol} {name : Name} {production : Production} :
    (symbol, name, production) ∈ system.rules ↔
      system.production? symbol = some production ∧ system.alphabet.name? symbol = some name := by
  simp only [LSystem.rules, List.mem_filterMap, Option.map_eq_some_iff, Prod.exists, Prod.mk.injEq]
  constructor
  · rintro ⟨_, _, listed, _, found, rfl, rfl, rfl⟩
    obtain ⟨slot, entry⟩ := List.mem_iff_getElem?.mp listed
    rw [compiles.alphabet_eq] at entry ⊢
    exact ⟨found, (Alphabet.slot?_of_getElem?_entries compiles.fits entry).2⟩
  · rintro ⟨found, named⟩
    obtain ⟨slot, placed, -⟩ := Option.bind_eq_some_iff.mp found
    rw [compiles.alphabet_eq] at placed named
    obtain ⟨other, entry⟩ := Alphabet.getElem?_entries_of_slot? compiles.fits placed
    rw [(Alphabet.slot?_of_getElem?_entries compiles.fits entry).2] at named
    obtain rfl := Option.some.inj named
    rw [← compiles.alphabet_eq] at entry
    exact ⟨symbol, other, List.mem_of_getElem? entry, production, found, rfl, rfl, rfl⟩

omit constants in
/-- The rules are listed slot by slot. -/
theorem Compiles.pairwise_rules :
    system.rules.Pairwise fun rule later => ∃ slot slot',
      system.alphabet.slot? rule.1 = some slot ∧ system.alphabet.slot? later.1 = some slot' ∧
        slot < slot' := by
  have slots : system.alphabet.entries.Pairwise fun entry later => ∃ slot slot',
      system.alphabet.slot? entry.1 = some slot ∧ system.alphabet.slot? later.1 = some slot' ∧
        slot < slot' := by
    have placed : ∀ slot symbol name, system.alphabet.entries[slot]? = some (symbol, name) →
        system.alphabet.slot? symbol = some slot := by
      intro slot symbol name entry
      rw [compiles.alphabet_eq] at entry ⊢
      exact (Alphabet.slot?_of_getElem?_entries compiles.fits entry).1
    rw [List.pairwise_iff_getElem]
    intro slot slot' inside inside' less
    exact ⟨slot, slot', placed _ _ _ (List.getElem?_eq_getElem inside),
      placed _ _ _ (List.getElem?_eq_getElem inside'), less⟩
  refine slots.filterMap _ ?_
  rintro ⟨symbol, name⟩ ⟨symbol', name'⟩ ordered _ kept _ kept'
  obtain ⟨production, -, rfl⟩ := Option.map_eq_some_iff.mp kept
  obtain ⟨production', -, rfl⟩ := Option.map_eq_some_iff.mp kept'
  exact ordered

end

/-- The listing of a grammar that was read is faithful.  It has a line for each symbol with a
production, slot by slot, with the name of the symbol and a body; and the body is read as
alternatives whose names mean the choices of the production, one by one, with the same weights. -/
theorem listing_faithful {rules : List (Name × String)} {grammar : Grammar}
    (read : Grammar.parse rules = .ok grammar) {start : Name} {tabulate : Bool} {system : LSystem}
    (compiled : compile start grammar tabulate = .ok system) :
    ∃ lines : List (Symbol × Name × String),
      system.listing = String.join (lines.map fun (_, name, body) =>
        "\"" ++ name.text ++ "\": " ++ body ++ ",\n") ∧
      (lines.map Prod.fst).Pairwise (fun symbol later => ∃ slot slot',
        system.alphabet.slot? symbol = some slot ∧ system.alphabet.slot? later = some slot' ∧
          slot < slot') ∧
      (∀ symbol, symbol ∈ lines.map Prod.fst ↔
        ∃ production, system.production? symbol = some production) ∧
      ∀ symbol name body, (symbol, name, body) ∈ lines →
        system.alphabet.name? symbol = some name ∧
        ∃ production, system.production? symbol = some production ∧
          List.Forall₂ (Choice.Compiles system.alphabet) (Alternative.parseAll body)
            production.choices.toList := by
  obtain ⟨entries, compiles⟩ := exists_compiles compiled
  have constants := (Grammar.assembled_parse read).tidy.ordinaryConstants
  refine ⟨system.rules.map fun line =>
    (line.1, line.2.1, Alternative.textAll (line.2.2.choices.toList.map system.named)),
    ?text, ?slots, ?symbols, ?bodies⟩
  case text =>
    rw [listing, List.map_map]
    rfl
  case slots =>
    rw [List.map_map, List.pairwise_map]
    exact compiles.pairwise_rules
  case symbols =>
    intro symbol
    rw [List.map_map, List.mem_map]
    constructor
    · rintro ⟨⟨symbol, name, production⟩, listed, rfl⟩
      exact ⟨production, (compiles.mem_rules.mp listed).1⟩
    · rintro ⟨production, found⟩
      obtain ⟨rule, -, means, -⟩ := compiles.production?_eq_some found
      have named := compiles.name?_of_means constants means
      exact ⟨_, compiles.mem_rules.mpr ⟨found, named⟩, rfl⟩
  case bodies =>
    intro symbol name body line
    obtain ⟨⟨_, _, production⟩, listed, same⟩ := List.mem_map.mp line
    obtain ⟨rfl, rfl, rfl⟩ : _ ∧ _ ∧ _ := by simpa using same
    obtain ⟨found, named⟩ := compiles.mem_rules.mp listed
    exact ⟨named, production, found, compiles.forall₂_parseAll constants
      (fun _ _ => Grammar.wellFormed_of_parse read) found⟩

/-- A grammar with a level in two spellings, of which the later one is listed, and with a catalyst
that starts with an asterisk itself. -/
theorem listing_faithful_respelled :
    ∃ grammar system, ∃ lines : List (Symbol × Name × String),
      Grammar.parse [(⟨"A"⟩, "0.50 *S02  S3 b;1e1 **;x; -0"), (⟨"S03"⟩, "1 A"),
        (⟨"S3"⟩, "2 b\n;0.1 A *A")] = .ok grammar ∧
      compile ⟨"A"⟩ grammar true = .ok system ∧
      system.listing = "\"A\": 0.5 *S2 S3 b; 10 **; -0,\n\"S3\": 2 b; 0.1 A *A,\n" ∧
      system.listing = String.join (lines.map fun (_, name, body) =>
        "\"" ++ name.text ++ "\": " ++ body ++ ",\n") ∧
      ∀ symbol name body, (symbol, name, body) ∈ lines →
        system.alphabet.name? symbol = some name ∧
        ∃ production, system.production? symbol = some production ∧
          List.Forall₂ (Choice.Compiles system.alphabet) (Alternative.parseAll body)
            production.choices.toList := by
  have evaluated : (Grammar.parse [(⟨"A"⟩, "0.50 *S02  S3 b;1e1 **;x; -0"), (⟨"S03"⟩, "1 A"),
      (⟨"S3"⟩, "2 b\n;0.1 A *A")]).toOption.map (fun grammar =>
        (compile ⟨"A"⟩ grammar true).toOption.map listing) =
      some (some "\"A\": 0.5 *S2 S3 b; 10 **; -0,\n\"S3\": 2 b; 0.1 A *A,\n") := by
    decide +kernel
  obtain ⟨grammar, read, accepted⟩ := exists_ok_of_toOption_map evaluated
  obtain ⟨system, compiled, listed⟩ := exists_ok_of_toOption_map accepted
  obtain ⟨lines, text, -, -, bodies⟩ := listing_faithful read compiled
  exact ⟨grammar, system, lines, read, compiled, listed, text, bodies⟩

end LSystem

end Lindenmayer
