import Lindenmayer.Proofs.LSystem.Derivability

/-!
# L-systems that agree

Two L-systems agree on a kind of symbols if they put the same words in place of each symbol of that
kind, draw for draw, and no word put in place of one leads out of the kind.  Such systems derive the
same words from a word of these symbols, whatever they do with other symbols.
-/

namespace Lindenmayer.LSystem

/-- The systems grow from the same symbol of a kind, and do the same with all symbols of the kind,
which no derivation leaves. -/
structure AgreeOn (P : Symbol → Prop) (a b : LSystem) : Prop where
  prepared : a.Prepared
  boundary_eq : a.alphabet.boundary = b.alphabet.boundary
  start_eq : a.start = b.start
  start : P a.start
  closed : ∀ {predecessor symbol word}, P symbol → a.Replaces predecessor symbol word →
    ∀ other ∈ word, P other
  replacement_eq : ∀ {G : Type} [WordSource G] (predecessor : Symbol) {symbol : Symbol}
    (source : G), P symbol → a.replacement predecessor symbol source = b.replacement predecessor symbol source

/-- A system whose samplers are prepared agrees with itself on all symbols. -/
theorem Prepared.agreeOn_self {system : LSystem} (prepared : system.Prepared) :
    AgreeOn (fun _ => True) system system where
  prepared := prepared
  boundary_eq := rfl
  start_eq := rfl
  start := trivial
  closed _ _ _ _ := trivial
  replacement_eq _ _ _ _ := rfl

namespace AgreeOn

variable {P : Symbol → Prop} {a b : LSystem} (agree : AgreeOn P a b) {G : Type} [WordSource G]
  {word : List Symbol}
include agree

/-- A pass does not lead out of the kind. -/
theorem forall_mem_pass (within : ∀ symbol ∈ word, P symbol) (source : G) :
    ∀ symbol ∈ (a.pass word source).1, P symbol :=
  (agree.prepared.derives_pass word source).forall_mem agree.closed within

theorem replacementBehind_eq (within : ∀ symbol ∈ word, P symbol) (predecessor : Symbol)
    (source : G) :
    a.replacementBehind predecessor word source = b.replacementBehind predecessor word source := by
  induction word generalizing predecessor source with
  | nil => rfl
  | cons symbol rest ih =>
    obtain ⟨first, later⟩ := List.forall_mem_cons.mp within
    simp only [replacementBehind, agree.replacement_eq predecessor source first, ih later]

theorem pass_eq (within : ∀ symbol ∈ word, P symbol) (source : G) :
    a.pass word source = b.pass word source := by
  rw [LSystem.pass_eq, LSystem.pass_eq, agree.boundary_eq, agree.replacementBehind_eq within]

/-- Any number of passes keeps within the kind and comes to the same in both systems. -/
theorem passes_eq (within : ∀ symbol ∈ word, P symbol) (count : Nat) (source : G) :
    (∀ symbol ∈ (a.passes count word source).1, P symbol) ∧
      a.passes count word source = b.passes count word source := by
  induction count generalizing word source with
  | zero => exact ⟨within, rfl⟩
  | succ count ih =>
    rw [passes_succ, passes_succ, ← agree.pass_eq within source]
    exact ih (agree.forall_mem_pass within source) _

end AgreeOn

end Lindenmayer.LSystem
