import Lindenmayer.Proofs.Alphabet.RoundTrip
import Lindenmayer.Proofs.Grammar.Rewriting
import Lindenmayer.Proofs.Grammar.Tidy
import Lindenmayer.Proofs.LSystem.Derivation
import Lindenmayer.Proofs.LSystem.Productions
import Lindenmayer.Random.WordList

/-!
# Compilation keeps the meaning of a grammar

A compiled system derives from symbols what the grammar itself rewrites names to: encode a list of
names, derive once and decode, or put the names into their canonical spelling and rewrite them
directly.  Both ways draw the same words from the random source, step for step.
-/

namespace Lindenmayer

/-! ### Looking names up one level down -/

theorem Alphabet.HasLevel.pred {grammar : Grammar} {base : Name} {level : UInt8}
    (allocated : Alphabet.HasLevel grammar base level) (above : 1 < level) :
    Alphabet.HasLevel grammar base (level - 1) := by
  obtain ⟨highest, family, -, below⟩ := allocated
  exact ⟨highest, family, Alphabet.Layout.pred_level above below⟩

theorem Name.lowered_atLevel {base : Name} {level : UInt8} (isBase : base.IsBase)
    (positive : 0 < level) :
    (base.atLevel level).lowered = base.atLevel (if 1 < level then level - 1 else level) := by
  simp only [lowered, counter?_atLevel isBase positive]
  split <;> rfl

namespace Alphabet

/-- The symbol is that of the name, and the name is in its canonical spelling. -/
structure Spells (alphabet : Alphabet) (name : Name) (symbol : Symbol) : Prop where
  means : alphabet.Means name symbol
  canonical : name.canonical = name

section

variable {grammar : Grammar} (fits : Fits grammar) (constants : OrdinaryConstants grammar)
include fits constants

theorem spells_canonical {name : Name} {symbol : Symbol}
    (means : (assemble grammar).Means name symbol) :
    (assemble grammar).Spells name.canonical symbol := by
  refine ⟨symbol?_canonical fits constants means, ?_⟩
  cases counter : name.counter? with
  | none =>
    have unchanged := Name.canonical_of_counter?_eq_none counter
    rw [unchanged, unchanged]
  | some family =>
    obtain ⟨base, level⟩ := family
    rw [Name.canonical_of_counter? counter]
    exact Name.canonical_atLevel (Name.isBase_of_counter? counter)
      (Name.level_pos_of_counter? counter)

/-- Stepping a name down and stepping its symbol down come to the same. -/
theorem Spells.lowered {name : Name} {symbol : Symbol}
    (spells : (assemble grammar).Spells name symbol) :
    (assemble grammar).Spells name.lowered symbol.lowered := by
  rcases symbol?_cases fits spells.means with
    ⟨base, level, counter, allocated, rfl⟩ | ⟨index, registered, rfl⟩
  · have isBase := Name.isBase_of_counter? counter
    have positive := Name.level_pos_of_counter? counter
    have reached : HasLevel grammar base (if 1 < level then level - 1 else level) := by
      split
      · rename_i above
        exact allocated.pred above
      · exact allocated
    have reachedPositive : 0 < if 1 < level then level - 1 else level := reached.choose_spec.2.1
    rw [← spells.canonical, Name.canonical_of_counter? counter,
      Name.lowered_atLevel isBase positive]
    exact ⟨symbol?_atLevel fits reached, Name.canonical_atLevel isBase reachedPositive⟩
  · have ordinary := counter?_of_registered constants registered
    have unchanged : name.lowered = name := by simp [Name.lowered, ordinary]
    rw [unchanged]
    exact spells

theorem decode_of_spells {name : Name} {symbol : Symbol}
    (spells : (assemble grammar).Spells name symbol) :
    (assemble grammar).decode [symbol] = [name] := by
  rw [decode_of_means fits constants (.cons spells.means .nil), List.map_singleton,
    spells.canonical]

end

end Alphabet

/-! ### Drawing at one place -/

section

variable {grammar : Grammar} (fits : Alphabet.Fits grammar)
  (constants : Alphabet.OrdinaryConstants grammar)
include fits constants

/-- A choice is open behind a symbol exactly when its alternative is behind the name. -/
theorem Choice.isOpen_eq {alternative : Alternative} {choice : Choice} {predecessor : Name}
    {symbol : Symbol} (compiles : Choice.Compiles (Alphabet.assemble grammar) alternative choice)
    (spells : (Alphabet.assemble grammar).Spells predecessor symbol) :
    choice.isOpen (some symbol) = alternative.isOpenBehind predecessor := by
  have related := compiles.catalyst
  unfold Choice.isOpen Alternative.isOpenBehind
  cases source : alternative.catalyst with
  | none =>
    rw [source] at related
    cases target : choice.catalyst with
    | none => rfl
    | some meant =>
      rw [target] at related
      cases related
  | some catalyst =>
    rw [source] at related
    cases target : choice.catalyst with
    | none =>
      rw [target] at related
      cases related
    | some meant =>
      rw [target] at related
      cases related with
      | some means =>
        have same := Alphabet.symbol?_eq_iff_canonical fits constants means spells.means
        rw [spells.canonical] at same
        rw [Bool.eq_iff_iff]
        simpa using same

/-- The choices open at a place are the open alternatives, by position and weight. -/
theorem Choice.pool_eq {alternatives : List Alternative} {choices : List Choice}
    {predecessor : Name} {symbol : Symbol}
    (compiles : List.Forall₂ (Choice.Compiles (Alphabet.assemble grammar)) alternatives choices)
    (spells : (Alphabet.assemble grammar).Spells predecessor symbol) :
    Choice.pool choices (some symbol) =
      alternatives.zipIdx.filterMap fun entry =>
        if entry.1.isOpenBehind predecessor then some (entry.2, entry.1.weight) else none :=
  Choice.pool_eq_of_compiles compiles fun compiled =>
    Choice.isOpen_eq fits constants compiled spells

/-- Behind a predecessor, a rule and its production draw alike: the symbols drawn are those of the
names drawn, and the source advances equally. -/
theorem Production.draw_ofChoices {rule : Rule} {choices : List Choice}
    (compiles :
      List.Forall₂ (Choice.Compiles (Alphabet.assemble grammar)) rule.alternatives choices)
    {predecessor : Name} {symbol : Symbol}
    (spells : (Alphabet.assemble grammar).Spells predecessor symbol) (tabulate : Bool)
    {G : Type} [WordSource G] (source : G) :
    Option.Rel (List.Forall₂ (Alphabet.assemble grammar).Means)
        (rule.drawBehind tabulate predecessor source).1
        ((ofChoices choices tabulate).draw symbol source).1 ∧
      ((ofChoices choices tabulate).draw symbol source).2 =
        (rule.drawBehind tabulate predecessor source).2 := by
  have pools : Choice.pool choices (some symbol) = rule.poolBehind predecessor :=
    Choice.pool_eq fits constants compiles spells
  simp only [draw, Rule.drawBehind, sampler_ofChoices, pools, and_true]
  cases (Sampler.sample (Sampler.ofPool (rule.poolBehind predecessor) tabulate) source).1 with
  | none => exact .none
  | some index =>
    have entry : (ofChoices choices tabulate).choices[index]? = choices[index]? := by
      simp [ofChoices]
    simp only [Option.bind_some, entry]
    cases chosen : rule.alternatives[index]? with
    | none =>
      have missing : choices[index]? = none := by
        rw [List.getElem?_eq_none_iff] at chosen ⊢
        rw [← compiles.length_eq]
        exact chosen
      rw [missing]
      exact .none
    | some alternative =>
      obtain ⟨inside, rfl⟩ := List.getElem?_eq_some_iff.mp chosen
      have inside' : index < choices.length := by rwa [← compiles.length_eq]
      rw [List.getElem?_eq_getElem inside']
      have related := compiles.get inside inside'
      exact .some related.successors

end

/-! ### Rules and productions -/

namespace LSystem

/-- No two rules are stored under spellings of the same name. -/
def DistinctKeys (grammar : Grammar) : Prop :=
  ∀ key ∈ grammar.rules, ∀ key' ∈ grammar.rules, key.canonical = key'.canonical → key = key'

variable {start : Name} {grammar : Grammar} {tabulate : Bool} {system : LSystem}
  {entries : List (Symbol × Production)}

/-- With distinct keys, a rule is found under the name of its key. -/
theorem DistinctKeys.ruleNamed?_eq_some (distinct : DistinctKeys grammar) {key name : Name}
    {rule : Rule} (member : (key, rule) ∈ grammar.rules.toList) (named : key.canonical = name) :
    grammar.ruleNamed? name = some rule := by
  cases search : grammar.rules.toList.find? fun entry => entry.1.canonical == name with
  | none =>
    have checked := List.find?_eq_none.mp search _ member
    simp [named] at checked
  | some other =>
    obtain ⟨otherKey, otherRule⟩ := other
    have otherNamed : otherKey.canonical = name := by simpa using List.find?_some search
    have stored := Std.ExtTreeMap.mem_toList_iff_getElem?_eq_some.mp member
    have otherStored := Std.ExtTreeMap.mem_toList_iff_getElem?_eq_some.mp
      (List.mem_of_find?_eq_some search)
    have sameKey : otherKey = key := by
      apply distinct _ _ _ _ (otherNamed.trans named.symm)
      · exact Std.ExtTreeMap.mem_iff_isSome_getElem?.mpr (Option.isSome_of_eq_some otherStored)
      · exact Std.ExtTreeMap.mem_iff_isSome_getElem?.mpr (Option.isSome_of_eq_some stored)
    rw [sameKey, stored, Option.some.injEq] at otherStored
    rw [Grammar.ruleNamed?, search, Option.map_some, ← otherStored]

/-- The production of a symbol is that of the rule for its name. -/
theorem Compiles.production?_cases (compiles : Compiles start grammar tabulate system entries)
    (constants : Alphabet.OrdinaryConstants grammar) (distinct : DistinctKeys grammar)
    {name : Name} {symbol : Symbol} (spells : system.alphabet.Spells name symbol) :
    (grammar.ruleNamed? name = none ∧ system.production? symbol = none) ∨
      ∃ rule choices, grammar.ruleNamed? name = some rule ∧
        List.Forall₂ (Choice.Compiles system.alphabet) rule.alternatives choices ∧
          system.production? symbol = some (Production.ofChoices choices tabulate) := by
  have sameSymbol : ∀ {key : Name} {other : Symbol}, system.alphabet.Means key other →
      (other = symbol ↔ key.canonical = name) := by
    intro key other means
    have spelled := spells.means
    rw [compiles.alphabet_eq] at means spelled
    rw [Alphabet.symbol?_eq_iff_canonical compiles.fits constants means spelled, spells.canonical]
  cases found : system.production? symbol with
  | none =>
    refine Or.inl ⟨?_, rfl⟩
    rw [Grammar.ruleNamed?, Option.map_eq_none_iff, List.find?_eq_none]
    intro rule member equal
    obtain ⟨entry, -, means, -⟩ := exists_right_of_forall₂ compiles.rules member
    have same := (sameSymbol means).mpr (by simpa using equal)
    rw [same] at means
    exact compiles.production?_eq_none found rule member means
  | some production =>
    obtain ⟨⟨key, rule⟩, member, means, choices, related, rfl⟩ := compiles.production?_eq_some found
    have named := (sameSymbol means).mp rfl
    exact Or.inr ⟨rule, choices, distinct.ruleNamed?_eq_some member named, related, rfl⟩

/-! ### Whole words -/

/-- Replacing one symbol is rewriting its name. -/
theorem Compiles.replacement_eq (compiles : Compiles start grammar tabulate system entries)
    (constants : Alphabet.OrdinaryConstants grammar) (distinct : DistinctKeys grammar)
    {predecessor name : Name} {symbol before : Symbol}
    (spellsBefore : system.alphabet.Spells predecessor before)
    (spells : system.alphabet.Spells name symbol) {G : Type} [WordSource G] (source : G) :
    system.alphabet.decode (system.replacement before symbol source).1 =
        (grammar.rewriteName tabulate predecessor name source).1 ∧
      (system.replacement before symbol source).2 =
        (grammar.rewriteName tabulate predecessor name source).2 := by
  have fits := compiles.fits
  have lowered : system.alphabet.Spells name.lowered symbol.lowered := by
    rw [compiles.alphabet_eq] at spells ⊢
    exact spells.lowered fits constants
  have copied : system.alphabet.decode [symbol.lowered] = [name.lowered] := by
    rw [compiles.alphabet_eq] at lowered ⊢
    exact Alphabet.decode_of_spells fits constants lowered
  rcases compiles.production?_cases constants distinct lowered with
    ⟨noRule, noProduction⟩ | ⟨rule, choices, found, related, production⟩
  · simp only [replacement, noProduction, Grammar.rewriteName, noRule, copied, and_self]
  · rw [compiles.alphabet_eq] at related spellsBefore
    obtain ⟨drawn, sources⟩ := Production.draw_ofChoices fits constants related spellsBefore
      tabulate source
    simp only [replacement, production, Grammar.rewriteName, found, sources]
    cases names : rule.drawBehind tabulate predecessor source with
    | mk successors after =>
      cases word : (Production.ofChoices choices tabulate).draw before source with
      | mk chosen _ =>
        rw [names, word] at drawn
        cases drawn with
        | none => exact ⟨copied, rfl⟩
        | some means =>
          rw [compiles.alphabet_eq]
          exact ⟨Alphabet.decode_of_means fits constants means, rfl⟩

theorem Compiles.replacementBehind_eq (compiles : Compiles start grammar tabulate system entries)
    (constants : Alphabet.OrdinaryConstants grammar) (distinct : DistinctKeys grammar)
    {names : List Name} {word : List Symbol}
    (means : List.Forall₂ system.alphabet.Means names word) {predecessor : Name} {before : Symbol}
    (spellsBefore : system.alphabet.Spells predecessor before) {G : Type} [WordSource G]
    (source : G) :
    system.alphabet.decode (system.replacementBehind before word source).1 =
        (grammar.rewriteBehind tabulate predecessor (names.map Name.canonical) source).1 ∧
      (system.replacementBehind before word source).2 =
        (grammar.rewriteBehind tabulate predecessor (names.map Name.canonical) source).2 := by
  induction means generalizing predecessor before source with
  | nil => exact ⟨rfl, rfl⟩
  | @cons name symbol names word head _ ih =>
    have spells : system.alphabet.Spells name.canonical symbol := by
      rw [compiles.alphabet_eq] at head ⊢
      exact Alphabet.spells_canonical compiles.fits constants head
    obtain ⟨here, after⟩ := compiles.replacement_eq constants distinct spellsBefore spells source
    obtain ⟨rest, behind⟩ := ih spells (system.replacement before symbol source).2
    rw [after] at rest behind
    simp only [replacementBehind, List.map_cons, Grammar.rewriteBehind, Alphabet.decode_append,
      here, after, rest, behind, and_self]

/-- Compilation keeps the meaning of a grammar: what a compiled system derives from the symbols of
some names decodes to what the grammar rewrites the names to, and the random source is left in the
same state.  It is put behind whatever the output buffer held. -/
theorem decode_derive {G : Type} [WordSource G] {grammar : Grammar}
    (assembled : grammar.Assembled) (distinct : DistinctKeys grammar) {start : Name}
    {tabulate : Bool} {system : LSystem} (compiled : compile start grammar tabulate = .ok system)
    {names : List Name} {word : List Symbol} (encoded : system.alphabet.encode names = .ok word)
    (output : Buffer) (source : G) :
    system.alphabet.decode (system.derive word output source).1.toList =
        system.alphabet.decode output.toList ++
          (grammar.rewrite tabulate (names.map Name.canonical) source).1 ∧
      (system.derive word output source).2 =
        (grammar.rewrite tabulate (names.map Name.canonical) source).2 := by
  obtain ⟨entries, compiles⟩ := exists_compiles compiled
  have constants := assembled.tidy.ordinaryConstants
  have boundary : system.alphabet.Spells Name.empty system.alphabet.boundary := by
    rw [compiles.alphabet_eq]
    exact ⟨Alphabet.symbol?_empty compiles.fits, Name.canonical_empty⟩
  obtain ⟨contents, sources⟩ :=
    system.deriveBehind_eq system.alphabet.boundary word output source
  obtain ⟨decoded, after⟩ := compiles.replacementBehind_eq constants distinct
    (Alphabet.encode_eq_ok_iff.mp encoded) boundary source
  rw [derive, contents, sources, Alphabet.decode_append, decoded, after]
  exact ⟨rfl, rfl⟩

/-- A family whose second level has a rule, and whose levels are spelled in two ways. -/
def countdown : Grammar :=
  Grammar.ofRules
    [⟨⟨"A"⟩, [⟨1, none, [⟨"B"⟩, ⟨"S03"⟩]⟩], by simp⟩,
      ⟨⟨"S2"⟩, [⟨1, none, [⟨"x"⟩]⟩, ⟨2, some ⟨"B"⟩, [⟨"A"⟩, ⟨"S01"⟩]⟩], by simp⟩]

theorem decode_derive_countdown :
    countdown.Assembled ∧ DistinctKeys countdown ∧
    ∃ system word, compile ⟨"A"⟩ countdown true = .ok system ∧
      system.alphabet.encode [⟨"B"⟩, ⟨"S03"⟩, ⟨"S3"⟩] = .ok word ∧
        system.alphabet.decode
            (system.derive word Buffer.unallocated (WordList.mk [0x8000000000000000])).1.toList =
          [⟨"B"⟩, ⟨"A"⟩, ⟨"S1"⟩, ⟨"x"⟩] := by
  have assembled : countdown.Assembled := Grammar.assembled_ofRules _
  have distinct : DistinctKeys countdown := by
    have checked : ∀ key ∈ countdown.rules.keys, ∀ key' ∈ countdown.rules.keys,
        key.canonical = key'.canonical → key = key' := by decide +kernel
    intro key member key' member'
    exact checked key (Std.ExtTreeMap.mem_keys.mpr member) key'
      (Std.ExtTreeMap.mem_keys.mpr member')
  have accepted : ((compile ⟨"A"⟩ countdown true).bind fun system =>
      (system.alphabet.encode [⟨"B"⟩, ⟨"S03"⟩, ⟨"S3"⟩]).map fun word => (system, word)).isOk =
        true := by decide +kernel
  have rewritten : (countdown.rewrite true ([⟨"B"⟩, ⟨"S03"⟩, ⟨"S3"⟩].map Name.canonical)
      (WordList.mk [0x8000000000000000])).1 = [⟨"B"⟩, ⟨"A"⟩, ⟨"S1"⟩, ⟨"x"⟩] := by decide +kernel
  cases compiled : compile ⟨"A"⟩ countdown true with
  | error error => rw [compiled] at accepted; cases accepted
  | ok system =>
    cases encoded : system.alphabet.encode [⟨"B"⟩, ⟨"S03"⟩, ⟨"S3"⟩] with
    | error error =>
      simp [compiled, Except.bind, encoded, Except.map, Except.isOk, Except.toBool] at accepted
    | ok word =>
      refine ⟨assembled, distinct, system, word, rfl, encoded, ?_⟩
      rw [(decode_derive assembled distinct compiled encoded Buffer.unallocated
        (WordList.mk [0x8000000000000000])).1, rewritten]
      rfl

end LSystem

end Lindenmayer
