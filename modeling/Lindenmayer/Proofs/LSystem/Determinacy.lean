import Lindenmayer.Proofs.LSystem.Pools
import Lindenmayer.Proofs.LSystem.Pruning
import Mathlib.Logic.Function.Iterate

/-!
# Grammars that leave nothing to chance

A grammar is determinate if behind any symbol at most one alternative of each rule can be drawn.
Then every prepared sampler is empty or has a single entry, in whatever context it is used, and so
derivation takes nothing from its random source and is a function from words to words.
-/

namespace Lindenmayer

/-- Behind every symbol, at most one of the alternatives of each rule is open and can be drawn. -/
def Grammar.Determinate (grammar : Grammar) (alphabet : Alphabet) : Prop :=
  ∀ entry ∈ grammar.rules.toList, ∀ predecessor : Symbol,
    (entry.2.alternatives.countP fun alternative =>
      alternative.isOpen alphabet predecessor && alternative.isUsable) ≤ 1

namespace Rule

variable {rule : Rule} {alphabet : Alphabet}

/-- The symbols that may make a difference for a rule: its catalysts, and the boundary on behalf of
all other symbols. -/
def contexts (rule : Rule) (alphabet : Alphabet) : List Symbol :=
  alphabet.boundary :: rule.alternatives.filterMap fun alternative =>
    alternative.catalyst.bind alphabet.symbol?

/-- Behind a symbol that is not a catalyst, no more is open than behind any other symbol. -/
theorem isOpen_of_not_mem_contexts {predecessor : Symbol}
    (other : predecessor ∉ rule.contexts alphabet) {alternative : Alternative}
    (listed : alternative ∈ rule.alternatives)
    (isOpen : alternative.isOpen alphabet predecessor = true) (symbol : Symbol) :
    alternative.isOpen alphabet symbol = true := by
  cases needed : alternative.catalyst with
  | none => simp [Alternative.isOpen, needed]
  | some name =>
    rw [Alternative.isOpen, needed, Option.all_some, beq_iff_eq] at isOpen
    refine absurd (List.mem_cons_of_mem _ (List.mem_filterMap.mpr ⟨alternative, listed, ?_⟩)) other
    rw [needed, Option.bind_some, isOpen]

end Rule

/-- Determinacy can be checked context by context. -/
theorem Grammar.determinate_iff {grammar : Grammar} {alphabet : Alphabet} :
    grammar.Determinate alphabet ↔ ∀ entry ∈ grammar.rules.toList,
      ∀ predecessor ∈ entry.2.contexts alphabet,
        (entry.2.alternatives.countP fun alternative =>
          alternative.isOpen alphabet predecessor && alternative.isUsable) ≤ 1 := by
  constructor
  · intro determinate entry listed predecessor _
    exact determinate entry listed predecessor
  · intro checked entry listed predecessor
    by_cases known : predecessor ∈ entry.2.contexts alphabet
    · exact checked entry listed predecessor known
    · refine (List.countP_mono_left ?_).trans
        (checked entry listed alphabet.boundary List.mem_cons_self)
      intro alternative given both
      obtain ⟨isOpen, isUsable⟩ := Bool.and_eq_true_iff.mp both
      rw [Rule.isOpen_of_not_mem_contexts known given isOpen alphabet.boundary, isUsable]
      rfl

instance (grammar : Grammar) (alphabet : Alphabet) : Decidable (grammar.Determinate alphabet) :=
  decidable_of_iff _ Grammar.determinate_iff.symm

/-- An alternative becomes one choice only. -/
theorem Choice.Compiles.rightUnique {alphabet : Alphabet} :
    Relator.RightUnique (Choice.Compiles alphabet) := by
  intro alternative choice choice' here there
  have same : ofAlternative alphabet Name.empty alternative = .ok choice' :=
    ofAlternative_eq_ok_iff.mpr there
  rw [ofAlternative_eq_ok_iff.mpr here] at same
  exact Except.ok.inj same

/-- As many choices are eligible as alternatives are open and can be drawn. -/
theorem Choice.length_eligible {alphabet : Alphabet} {alternatives : List Alternative}
    {choices : List Choice}
    (compiles : List.Forall₂ (Choice.Compiles alphabet) alternatives choices)
    (predecessor : Symbol) :
    (eligible choices predecessor).length = alternatives.countP fun alternative =>
      alternative.isOpen alphabet predecessor && alternative.isUsable := by
  rw [List.countP_eq_length_filter, eligible]
  refine (List.rel_filter (R := Choice.Compiles alphabet) ?_ compiles).length_eq.symm
  intro alternative choice related
  dsimp only
  rw [related.isOpen_eq, related.isUsable_eq]

/-- With at most one eligible choice, a draw is settled without the source. -/
theorem Production.draw_of_length_eligible_le {choices : List Choice} {predecessor : Symbol}
    (few : (Choice.eligible choices predecessor).length ≤ 1) (tabulate : Bool)
    {G : Type} [WordSource G] (source : G) :
    (ofChoices choices tabulate).draw predecessor source =
      ((Choice.eligible choices predecessor).head?.map Choice.successors, source) := by
  refine Prod.ext ?drawn ?kept
  case drawn =>
    rcases draw_cases choices tabulate predecessor source with
      ⟨noneEligible, notDrawn⟩ | ⟨choice, one, drawn⟩
    · rw [notDrawn, noneEligible]
      rfl
    · obtain ⟨only, alone⟩ := List.length_eq_one_iff.mp
        (Nat.le_antisymm few (List.length_pos_of_mem one))
      rw [alone, List.mem_singleton] at one
      rw [drawn, alone, one]
      rfl
  case kept =>
    rw [← Choice.length_usable_pool] at few
    rw [draw, sampler_ofChoices, Sampler.ofPool_of_length_usable_le few]
    cases (Sampler.usable (Choice.pool choices (some predecessor))).head? <;> rfl

namespace LSystem

/-! ### Derivation without a source -/

/-- No production leaves a choice, whatever symbol stands before. -/
def Determinate (system : LSystem) : Prop :=
  ∀ symbol production, system.production? symbol = some production → ∀ predecessor,
    (Choice.eligible production.choices.toList predecessor).length ≤ 1

/-- The word put in place of a symbol behind another by the first eligible choice; without one, the
symbol itself, one level down. -/
def imageBehind (system : LSystem) (predecessor symbol : Symbol) : List Symbol :=
  ((system.production? symbol.lowered).bind fun production =>
    (Choice.eligible production.choices.toList predecessor).head?.map Choice.successors).getD
      [symbol.lowered]

/-- The images of the symbols of a word that stands behind a given symbol, in a row. -/
def imagesBehind (system : LSystem) : Symbol → List Symbol → List Symbol
  | _, [] => []
  | predecessor, symbol :: rest =>
    system.imageBehind predecessor symbol ++ imagesBehind system symbol rest

/-- The word that follows a word. -/
def successor (system : LSystem) (word : List Symbol) : List Symbol :=
  system.imagesBehind system.alphabet.boundary word

/-- Every pass is settled without its source, which it leaves as it is. -/
def Follows (system : LSystem) (next : List Symbol → List Symbol) : Prop :=
  ∀ {G : Type} [WordSource G] (word : List Symbol) (source : G),
    system.pass word source = (next word, source)

theorem Follows.passes_eq {system : LSystem} {next : List Symbol → List Symbol}
    (follows : system.Follows next) {G : Type} [WordSource G] (count : Nat) (word : List Symbol)
    (source : G) : system.passes count word source = (next^[count] word, source) := by
  induction count generalizing word with
  | zero => rfl
  | succ count ih => rw [passes_succ, follows, ih, Function.iterate_succ_apply]

section

variable {system : LSystem} (prepared : system.Prepared) (determinate : system.Determinate)
  {G : Type} [WordSource G]
include prepared determinate

theorem Determinate.replacement_eq (predecessor symbol : Symbol) (source : G) :
    system.replacement predecessor symbol source =
      (system.imageBehind predecessor symbol, source) := by
  cases found : system.production? symbol.lowered with
  | none => simp [replacement, imageBehind, found]
  | some production =>
    have drawn := Production.draw_of_length_eligible_le
      (determinate _ _ found predecessor) system.tabulated source
    rw [← prepared _ _ found] at drawn
    simp [replacement, imageBehind, found, drawn]

theorem Determinate.replacementBehind_eq (predecessor : Symbol) (word : List Symbol) (source : G) :
    system.replacementBehind predecessor word source =
      (system.imagesBehind predecessor word, source) := by
  induction word generalizing predecessor with
  | nil => rfl
  | cons symbol rest ih =>
    simp only [replacementBehind, imagesBehind,
      determinate.replacement_eq prepared predecessor symbol source, ih symbol]

/-- Every pass puts the following word in place of a word and leaves the source alone. -/
theorem Determinate.follows : system.Follows system.successor := by
  intro G _ word source
  rw [LSystem.pass_eq, determinate.replacementBehind_eq prepared, successor]

end

/-! ### Determinate grammars -/

section

variable {start : Name} {grammar : Grammar} {tabulate tabulate' : Bool} {system system' : LSystem}
  {entries entries' : List (Symbol × Production)}
  (compiles : Compiles start grammar tabulate system entries)
include compiles

theorem Compiles.determinate (determinate : grammar.Determinate system.alphabet) :
    system.Determinate := by
  intro symbol production found predecessor
  obtain ⟨rule, listed, -, choices, related, rfl⟩ := compiles.production?_eq_some found
  exact (Choice.length_eligible related predecessor).trans_le (determinate rule listed predecessor)

/-- With tables and without, a symbol has the same choices. -/
theorem Compiles.choices_eq (compiles' : Compiles start grammar tabulate' system' entries')
    (symbol : Symbol) :
    (system.production? symbol).map Production.choices =
      (system'.production? symbol).map Production.choices := by
  have alphabets := compiles.alphabet_eq.trans compiles'.alphabet_eq.symm
  cases found : system.production? symbol with
  | none =>
    cases found' : system'.production? symbol with
    | none => rfl
    | some production' =>
      obtain ⟨rule, listed, means, -⟩ := compiles'.production?_eq_some found'
      rw [← alphabets] at means
      exact absurd means (compiles.production?_eq_none found rule listed)
  | some production =>
    obtain ⟨key, rule, here, -, choices, related, rfl⟩ := compiles.lastFor found
    obtain ⟨symbol', production', means, found'⟩ := compiles'.exists_production here.stored
    rw [← alphabets] at means
    obtain rfl : symbol' = symbol := Option.some.inj (means.symm.trans here.means)
    obtain ⟨key', rule', here', -, choices', related', rfl⟩ := compiles'.lastFor found'
    rw [← alphabets] at here' related'
    obtain rfl := here'.unique here
    obtain rfl := Option.some.inj (here'.stored.symm.trans here.stored)
    obtain rfl := List.right_unique_forall₂' Choice.Compiles.rightUnique related related'
    rw [found']
    rfl

/-- With tables and without, determinate words have the same successors. -/
theorem Compiles.successor_eq (compiles' : Compiles start grammar tabulate' system' entries') :
    system.successor = system'.successor := by
  have alphabets := compiles.alphabet_eq.trans compiles'.alphabet_eq.symm
  have image : ∀ predecessor symbol,
      system.imageBehind predecessor symbol = system'.imageBehind predecessor symbol := by
    intro predecessor symbol
    have read : ∀ system : LSystem, system.imageBehind predecessor symbol =
        (((system.production? symbol.lowered).map Production.choices).bind fun choices =>
          (Choice.eligible choices.toList predecessor).head?.map Choice.successors).getD
            [symbol.lowered] := fun system => by
      rw [imageBehind, Option.bind_map]
      rfl
    rw [read, read, compiles.choices_eq compiles']
  have images : ∀ predecessor word,
      system.imagesBehind predecessor word = system'.imagesBehind predecessor word := by
    intro predecessor word
    induction word generalizing predecessor with
    | nil => rfl
    | cons symbol rest ih => rw [imagesBehind, imagesBehind, image, ih]
  funext word
  rw [successor, successor, alphabets, images]

end

end LSystem

end Lindenmayer
