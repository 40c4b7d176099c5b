import Lindenmayer.Proofs.LSystem.Derivation
import Lindenmayer.Proofs.LSystem.Productions
import Lindenmayer.Proofs.Sampler.Draws

/-!
# Derivability

What an L-system may derive, whatever its random source hands out.  A symbol may be replaced by the
successors of any choice that is eligible behind some predecessor, or stays, one level down, if
there is no such choice.  A pass over a word replaces each of its symbols in one of these ways.
-/

namespace Lindenmayer

/-! ### Eligible choices -/

/-- The choices that can be drawn behind a symbol: the open ones of usable weight. -/
def Choice.eligible (choices : List Choice) (predecessor : Symbol) : List Choice :=
  choices.filter fun choice =>
    choice.isOpen (some predecessor) && Sampler.isUsable choice.weight

theorem Choice.mem_eligible {choices : List Choice} {predecessor : Symbol} {choice : Choice} :
    choice ∈ Choice.eligible choices predecessor ↔
      choice ∈ choices ∧ choice.isOpen (some predecessor) = true ∧
        Sampler.isUsable choice.weight = true := by
  rw [Choice.eligible, List.mem_filter, Bool.and_eq_true]

/-- The usable entries of a pool are the positions of the open choices of usable weight. -/
theorem Choice.mem_usable_pool {choices : List Choice} {catalyst : Option Symbol} {index : Nat} :
    index ∈ Sampler.usable (Choice.pool choices catalyst) ↔
      ∃ choice, choices[index]? = some choice ∧ choice.isOpen catalyst = true ∧
        Sampler.isUsable choice.weight = true := by
  simp only [Sampler.usable, Choice.pool, List.mem_map, List.mem_filter, List.mem_filterMap,
    Prod.exists, Option.ite_none_right_eq_some, Option.some.injEq, Prod.mk.injEq,
    List.mk_mem_zipIdx_iff_getElem?]
  constructor
  · intro given
    obtain ⟨index, weight, ⟨⟨choice, _, found, isOpen, rfl, rfl⟩, isUsable⟩, rfl⟩ := given
    exact ⟨choice, found, isOpen, isUsable⟩
  · intro given
    obtain ⟨choice, found, isOpen, isUsable⟩ := given
    exact ⟨index, choice.weight, ⟨⟨choice, index, found, isOpen, rfl, rfl⟩, isUsable⟩, rfl⟩

/-- A production draws nothing when no choice is eligible, and otherwise the successors of an
eligible choice. -/
theorem Production.draw_cases (choices : List Choice) (tabulate : Bool) (predecessor : Symbol)
    {G : Type} [WordSource G] (source : G) :
    (Choice.eligible choices predecessor = [] ∧
        ((ofChoices choices tabulate).draw predecessor source).1 = none) ∨
      ∃ choice ∈ Choice.eligible choices predecessor,
        ((ofChoices choices tabulate).draw predecessor source).1 = some choice.successors := by
  simp only [draw, sampler_ofChoices]
  rcases Sampler.sample_ofPool (Choice.pool choices (some predecessor)) tabulate source with
    ⟨noneUsable, notDrawn⟩ | ⟨index, usable, drawn⟩
  · refine Or.inl ⟨?_, by rw [notDrawn]; rfl⟩
    apply List.eq_nil_iff_forall_not_mem.mpr
    intro choice member
    obtain ⟨inside, isOpen, isUsable⟩ := Choice.mem_eligible.mp member
    obtain ⟨index, found⟩ := List.mem_iff_getElem?.mp inside
    have usable := Choice.mem_usable_pool.mpr ⟨choice, found, isOpen, isUsable⟩
    rw [noneUsable] at usable
    cases usable
  · obtain ⟨choice, found, isOpen, isUsable⟩ := Choice.mem_usable_pool.mp usable
    refine Or.inr ⟨choice, ?_, ?_⟩
    · exact Choice.mem_eligible.mpr ⟨List.mem_of_getElem? found, isOpen, isUsable⟩
    · simp [drawn, ofChoices, found]

namespace LSystem

/-- Every production has the samplers that its choices ask for. -/
def Prepared (system : LSystem) : Prop :=
  ∀ symbol production, system.production? symbol = some production →
    production = Production.ofChoices production.choices.toList system.tabulated

/-- A word that may replace a symbol standing behind a given one. -/
inductive Replaces (system : LSystem) (predecessor symbol : Symbol) : List Symbol → Prop
  /-- The successors of an eligible choice of the production. -/
  | draw {production : Production} {choice : Choice} :
    system.production? symbol.lowered = some production →
    choice ∈ Choice.eligible production.choices.toList predecessor →
    Replaces system predecessor symbol choice.successors
  /-- Without such a choice, the symbol itself, one level down. -/
  | copy :
    (∀ production, system.production? symbol.lowered = some production →
      Choice.eligible production.choices.toList predecessor = []) →
    Replaces system predecessor symbol [symbol.lowered]

/-- A word that may come out of a pass over another.  Where a word is cut for several lanes, a
symbol may lose sight of the one before it, so that no predecessor is prescribed. -/
inductive Derives (system : LSystem) : List Symbol → List Symbol → Prop
  | nil : Derives system [] []
  | cons (predecessor : Symbol) {symbol : Symbol} {word rest next : List Symbol} :
    system.Replaces predecessor symbol word → Derives system rest next →
      Derives system (symbol :: rest) (word ++ next)

/-- A word that may come out of a number of passes. -/
inductive DerivesIn (system : LSystem) (origin : List Symbol) : Nat → List Symbol → Prop
  | refl : DerivesIn system origin 0 origin
  | step {count : Nat} {word next : List Symbol} :
    DerivesIn system origin count word → system.Derives word next →
      DerivesIn system origin (count + 1) next

variable {system : LSystem}

/-- Parts of a word may be derived apart from each other. -/
theorem Derives.append {word next word' next' : List Symbol} (front : system.Derives word next)
    (back : system.Derives word' next') : system.Derives (word ++ word') (next ++ next') := by
  induction front with
  | nil => exact back
  | cons predecessor replaces _ ih =>
    rw [List.cons_append, List.append_assoc]
    exact .cons predecessor replaces ih

/-- What the replacements of symbols keep, a pass keeps. -/
theorem Derives.forall_mem {motive : Symbol → Prop}
    (keeps : ∀ {predecessor symbol word}, motive symbol →
      system.Replaces predecessor symbol word → ∀ other ∈ word, motive other)
    {word next : List Symbol} (derives : system.Derives word next)
    (holds : ∀ symbol ∈ word, motive symbol) : ∀ symbol ∈ next, motive symbol := by
  induction derives with
  | nil => exact holds
  | cons predecessor replaces _ ih =>
    obtain ⟨first, later⟩ := List.forall_mem_cons.mp holds
    rw [List.forall_mem_append]
    exact ⟨keeps first replaces, ih later⟩

/-- What every pass keeps, any number of passes keeps. -/
theorem DerivesIn.induction {motive : List Symbol → Prop} {origin : List Symbol}
    (keeps : ∀ {word next}, motive word → system.Derives word next → motive next)
    (holds : motive origin) {count : Nat} {word : List Symbol}
    (derives : system.DerivesIn origin count word) : motive word := by
  induction derives with
  | refl => exact holds
  | step _ derives ih => exact keeps ih derives

/-! ### Derivation with a random source -/

/-- Compiled systems are prepared. -/
theorem Compiles.prepared {start : Name} {grammar : Grammar} {tabulate : Bool}
    {entries : List (Symbol × Production)}
    (compiles : Compiles start grammar tabulate system entries) : system.Prepared := by
  intro symbol production found
  obtain ⟨rule, -, -, choices, -, rfl⟩ := compiles.production?_eq_some found
  rw [compiles.tabulated]
  rfl

section

variable (prepared : system.Prepared) {G : Type} [WordSource G]
include prepared

/-- What a random source picks for a symbol may replace it. -/
theorem Prepared.replaces (predecessor symbol : Symbol) (source : G) :
    system.Replaces predecessor symbol (system.replacement predecessor symbol source).1 := by
  cases found : system.production? symbol.lowered with
  | none =>
    simp only [replacement, found]
    refine .copy fun production other => ?_
    rw [found] at other
    cases other
  | some production =>
    have drawn := Production.draw_cases production.choices.toList system.tabulated predecessor
      source
    rw [← prepared _ _ found] at drawn
    simp only [replacement, found]
    rcases drawn with ⟨noneEligible, notDrawn⟩ | ⟨choice, eligible, drawn⟩
    · rw [notDrawn, Option.getD_none]
      refine .copy fun other also => ?_
      rw [found, Option.some.injEq] at also
      rw [← also, noneEligible]
    · rw [drawn, Option.getD_some]
      exact .draw found eligible

theorem Prepared.derives_replacementBehind (predecessor : Symbol) (word : List Symbol)
    (source : G) : system.Derives word (system.replacementBehind predecessor word source).1 := by
  induction word generalizing predecessor source with
  | nil => exact .nil
  | cons symbol rest ih =>
    exact .cons predecessor (prepared.replaces predecessor symbol source) (ih symbol _)

/-- A pass with a random source is one of the passes that may be. -/
theorem Prepared.derives_pass (word : List Symbol) (source : G) :
    system.Derives word (system.pass word source).1 := by
  rw [pass_eq]
  exact prepared.derives_replacementBehind _ word source

theorem Prepared.derivesIn_passes (origin : List Symbol) (count : Nat) (source : G) :
    system.DerivesIn origin count (system.passes count origin source).1 := by
  induction count with
  | zero => exact .refl
  | succ count ih =>
    rw [passes_add, passes_succ]
    exact .step ih (prepared.derives_pass _ _)

end

end LSystem

end Lindenmayer
