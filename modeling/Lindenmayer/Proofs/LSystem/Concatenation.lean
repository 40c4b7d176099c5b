import Lindenmayer.Proofs.Buffer.Histories
import Lindenmayer.Proofs.LSystem.Derivation

/-!
# Deriving a word part by part

A pass replaces one symbol after another, and from one symbol to the next it hands on no more than
the output, the source and the symbol itself.  So it may be interrupted anywhere and continued
symbol by symbol.  All that it does to its output is to append a word that does not depend on what
the output is like.
-/

namespace Lindenmayer.LSystem

variable {G : Type} [WordSource G]

/-- The symbols of a word, each with the symbol that it stands behind; the first one stands behind a
given symbol. -/
def neighbours (predecessor : Symbol) (word : List Symbol) : List (Symbol × Symbol) :=
  (predecessor :: word).zip word

/-- Replaces symbols behind their neighbours, one after another. -/
def replaceEach (system : LSystem) (pairs : List (Symbol × Symbol)) (state : Buffer × G) :
    Buffer × G :=
  pairs.foldl (fun state pair => system.replaceSymbol pair.1 pair.2 state.1 state.2) state

theorem neighbours_cons (predecessor symbol : Symbol) (rest : List Symbol) :
    neighbours predecessor (symbol :: rest) = (predecessor, symbol) :: neighbours symbol rest :=
  rfl

/-- A pass replaces each symbol behind its left neighbour. -/
theorem deriveBehind_eq_replaceEach (system : LSystem) (predecessor : Symbol) (word : List Symbol)
    (output : Buffer) (source : G) :
    system.deriveBehind predecessor word output source =
      system.replaceEach (neighbours predecessor word) (output, source) := by
  induction word generalizing predecessor output source with
  | nil => rfl
  | cons symbol rest ih =>
    rw [deriveBehind_cons, ih, neighbours_cons, replaceEach, replaceEach, List.foldl_cons]

/-- The words that replace the symbols one after another might as well be appended together. -/
theorem deriveBehind_eq_append (system : LSystem) (predecessor symbol : Symbol)
    (rest : List Symbol) (output : Buffer) (source : G) :
    system.deriveBehind predecessor (symbol :: rest) output source =
      (output.append (system.replacementBehind predecessor (symbol :: rest) source).1,
        (system.replacementBehind predecessor (symbol :: rest) source).2) := by
  induction rest generalizing predecessor symbol output source with
  | nil => simp [deriveBehind_cons, deriveBehind_nil, replaceSymbol, replacementBehind]
  | cons next rest ih =>
    rw [deriveBehind_cons, ih]
    simp only [replaceSymbol, Buffer.append_append]
    rfl

/-- A pass composes over concatenation and only appends.  To derive a word is to derive its front
and then to replace the symbols of its back one after another, each behind its left neighbour, the
first one behind the last symbol of the front, or behind the boundary if there is none; the output,
with its capacity, and the source come out the same.  And a pass keeps what the output held before
in front of what it appends.  Neither this nor the source afterwards depends on what the output was
like.  The capacity grows as if all of it were appended together. -/
theorem derive_composes (system : LSystem) (front back : List Symbol) (source : G) :
    (∀ output : Buffer,
      system.derive (front ++ back) output source =
        system.replaceEach (neighbours (front.getLast?.getD system.alphabet.boundary) back)
          (system.derive front output source)) ∧
    ∃ appended after, ∀ output : Buffer,
      (system.derive front output source).1.toList = output.toList ++ appended ∧
      (system.derive front output source).1 =
        (if front.isEmpty then output else output.append appended) ∧
      (system.derive front output source).2 = after := by
  constructor
  · intro output
    rw [derive, deriveBehind_append, deriveBehind_eq_replaceEach, List.getLastD_eq_getLast?]
    rfl
  · refine ⟨_, _, fun output => ⟨(system.derive_eq front output source).1, ?_,
      (system.derive_eq front output source).2⟩⟩
    cases front with
    | nil => rfl
    | cons symbol rest =>
      rw [pass_eq, derive, deriveBehind_eq_append]
      rfl

end Lindenmayer.LSystem
