import Lindenmayer.LSystem

/-!
# Derivation without buffers

A pass over a word only appends to its output buffer, and what it appends depends neither on the
contents nor on the capacity of the buffer.  Derivation is therefore a function from words to words
that threads a random source.
-/

namespace Lindenmayer.LSystem

variable {G : Type} [WordSource G]

/-- The word that replaces a word standing behind a given symbol. -/
def replacementBehind (system : LSystem) : Symbol → List Symbol → G → List Symbol × G
  | _, [], source => ([], source)
  | predecessor, symbol :: rest, source =>
    let (word, source) := system.replacement predecessor symbol source
    let (words, source) := replacementBehind system symbol rest source
    (word ++ words, source)

/-- The word that a word becomes in one pass, and the source after it. -/
def pass (system : LSystem) (word : List Symbol) (source : G) : List Symbol × G :=
  let (output, source) := system.derive word Buffer.unallocated source
  (output.toList, source)

/-- The word that a word becomes in a number of passes, and the source after them. -/
def passes (system : LSystem) : Nat → List Symbol → G → List Symbol × G
  | 0, word, source => (word, source)
  | count + 1, word, source =>
    let (word, source) := system.pass word source
    passes system count word source

theorem deriveBehind_eq (system : LSystem) (predecessor : Symbol) (word : List Symbol)
    (output : Buffer) (source : G) :
    (system.deriveBehind predecessor word output source).1.toList =
        output.toList ++ (system.replacementBehind predecessor word source).1 ∧
      (system.deriveBehind predecessor word output source).2 =
        (system.replacementBehind predecessor word source).2 := by
  induction word generalizing predecessor output source with
  | nil => simp [deriveBehind_nil, replacementBehind]
  | cons symbol rest ih =>
    rw [deriveBehind_cons]
    obtain ⟨contents, sources⟩ := ih symbol
      (system.replaceSymbol predecessor symbol output source).1
      (system.replaceSymbol predecessor symbol output source).2
    rw [contents, sources]
    simp [replaceSymbol, replacementBehind]

/-- A word is derived part by part: what follows the front stands behind its last symbol. -/
theorem deriveBehind_append (system : LSystem) (predecessor : Symbol) (front back : List Symbol)
    (output : Buffer) (source : G) :
    system.deriveBehind predecessor (front ++ back) output source =
      system.deriveBehind (front.getLastD predecessor) back
        (system.deriveBehind predecessor front output source).1
        (system.deriveBehind predecessor front output source).2 := by
  induction front generalizing predecessor output source with
  | nil => rfl
  | cons symbol front ih =>
    rw [List.cons_append, deriveBehind_cons, deriveBehind_cons, ih, List.getLastD_cons]

theorem pass_eq (system : LSystem) (word : List Symbol) (source : G) :
    system.pass word source =
      system.replacementBehind system.alphabet.boundary word source := by
  obtain ⟨contents, sources⟩ := system.deriveBehind_eq system.alphabet.boundary word
    Buffer.unallocated source
  rw [Buffer.toList_unallocated, List.nil_append] at contents
  exact Prod.ext contents sources

/-- A pass appends to its output what it would write into a fresh buffer. -/
theorem derive_eq (system : LSystem) (word : List Symbol) (output : Buffer) (source : G) :
    (system.derive word output source).1.toList =
        output.toList ++ (system.pass word source).1 ∧
      (system.derive word output source).2 = (system.pass word source).2 := by
  rw [pass_eq]
  exact system.deriveBehind_eq system.alphabet.boundary word output source

@[simp] theorem pass_nil (system : LSystem) (source : G) : system.pass [] source = ([], source) :=
  rfl

@[simp] theorem passes_zero (system : LSystem) (word : List Symbol) (source : G) :
    system.passes 0 word source = (word, source) := rfl

theorem passes_succ (system : LSystem) (count : Nat) (word : List Symbol) (source : G) :
    system.passes (count + 1) word source =
      system.passes count (system.pass word source).1 (system.pass word source).2 := rfl

/-- An empty word stays empty, and nothing is drawn for it. -/
@[simp] theorem passes_nil (system : LSystem) (count : Nat) (source : G) :
    system.passes count [] source = ([], source) := by
  induction count with
  | zero => rfl
  | succ count ih => rw [passes_succ, pass_nil, ih]

theorem passes_add (system : LSystem) (first second : Nat) (word : List Symbol) (source : G) :
    system.passes (first + second) word source =
      system.passes second (system.passes first word source).1
        (system.passes first word source).2 := by
  induction first generalizing word source with
  | zero => simp
  | succ first ih => rw [Nat.succ_add, passes_succ, passes_succ, ih]

end Lindenmayer.LSystem
