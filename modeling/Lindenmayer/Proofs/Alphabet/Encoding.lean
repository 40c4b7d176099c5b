import Lindenmayer.Alphabet
import Mathlib.Data.List.Forall2

/-!
# Encoding and decoding

Encoding a list of names succeeds exactly when each name means a symbol, and then gives these
symbols in order.  Otherwise the first name without a symbol is reported: a pass over a list ends
with the error of the first element at which it fails.
-/

namespace Lindenmayer

/-! ### First elements -/

/-- The element is the first one of the list with the property. -/
inductive IsFirst {α : Type} (P : α → Prop) : List α → α → Prop
  | head {x : α} {xs : List α} : P x → IsFirst P (x :: xs) x
  | tail {x y : α} {xs : List α} : ¬P y → IsFirst P xs x → IsFirst P (y :: xs) x

section

variable {α : Type} {P Q : α → Prop} {xs : List α} {x : α}

theorem isFirst_cons {y : α} :
    IsFirst P (y :: xs) x ↔ (P y ∧ x = y) ∨ (¬P y ∧ IsFirst P xs x) := by
  constructor
  · intro first
    cases first with
    | head holds => exact Or.inl ⟨holds, rfl⟩
    | tail fails later => exact Or.inr ⟨fails, later⟩
  · rintro (⟨holds, rfl⟩ | ⟨fails, later⟩)
    · exact .head holds
    · exact .tail fails later

theorem IsFirst.mem (first : IsFirst P xs x) : x ∈ xs := by
  induction first with
  | head => exact List.mem_cons_self
  | tail _ _ ih => exact List.mem_cons_of_mem _ ih

theorem IsFirst.holds (first : IsFirst P xs x) : P x := by
  induction first with
  | head holds => exact holds
  | tail _ _ ih => exact ih

/-- If an element has the property, one of them is the first. -/
theorem exists_isFirst (found : ∃ x ∈ xs, P x) : ∃ x, IsFirst P xs x := by
  induction xs with
  | nil => simp at found
  | cons y xs ih =>
    by_cases holds : P y
    · exact ⟨y, .head holds⟩
    · simp only [List.exists_mem_cons_iff, holds, false_or] at found
      obtain ⟨x, first⟩ := ih found
      exact ⟨x, .tail holds first⟩

theorem IsFirst.congr (first : IsFirst P xs x) (same : ∀ x ∈ xs, P x ↔ Q x) : IsFirst Q xs x := by
  induction first with
  | head holds => exact .head ((same _ List.mem_cons_self).mp holds)
  | tail fails _ ih =>
    refine .tail (mt (same _ List.mem_cons_self).mpr fails) (ih ?_)
    exact fun x member => same x (List.mem_cons_of_mem _ member)

/-- In a sorted list the first element comes before all others with the property. -/
theorem IsFirst.of_pairwise {R : α → α → Prop} (first : IsFirst P xs x) (sorted : xs.Pairwise R)
    {y : α} (member : y ∈ xs) (holds : P y) : y = x ∨ R x y := by
  induction first with
  | head =>
    rcases List.mem_cons.mp member with rfl | inside
    · exact Or.inl rfl
    · exact Or.inr (List.rel_of_pairwise_cons sorted inside)
  | tail fails _ ih =>
    rcases List.mem_cons.mp member with rfl | inside
    · exact absurd holds fails
    · exact ih sorted.of_cons inside

/-- A search finds the first element that passes the test. -/
theorem find?_eq_some_iff_isFirst {test : α → Bool} :
    xs.find? test = some x ↔ IsFirst (fun x => test x = true) xs x := by
  induction xs with
  | nil => exact ⟨nofun, nofun⟩
  | cons y xs ih =>
    by_cases passes : test y = true
    · simp [isFirst_cons, passes, eq_comm (a := y)]
    · simp [isFirst_cons, passes, ih]

end

/-! ### Passes over lists -/

/-- A pass over a list succeeds exactly when it succeeds at every element. -/
theorem mapM_eq_ok_iff {ε α β : Type} {f : α → Except ε β} {xs : List α} {ys : List β} :
    xs.mapM f = .ok ys ↔ List.Forall₂ (fun x y => f x = .ok y) xs ys := by
  induction xs generalizing ys with
  | nil =>
    rw [List.forall₂_nil_left_iff]
    exact ⟨fun h => (Except.ok.inj h).symm, fun h => h ▸ rfl⟩
  | cons x xs ih =>
    rw [List.forall₂_cons_left_iff, List.mapM_cons]
    cases head : f x with
    | error error =>
      constructor
      · intro h
        cases h
      · intro given
        obtain ⟨y, rest, h, -, -⟩ := given
        cases h
    | ok y =>
      cases tail : xs.mapM f with
      | error error =>
        constructor
        · intro h
          cases h
        · intro given
          obtain ⟨z, rest, -, h, -⟩ := given
          rw [← ih, tail] at h
          cases h
      | ok rest =>
        constructor
        · intro h
          exact ⟨y, rest, rfl, ih.mp tail, (Except.ok.inj h).symm⟩
        · intro given
          obtain ⟨z, rest', h, h', rfl⟩ := given
          rw [← ih, tail] at h'
          cases h
          cases h'
          rfl

/-- A pass over a list reports the error of the first element at which it fails. -/
theorem mapM_eq_error_iff {ε α β : Type} {f : α → Except ε β} {xs : List α} {error : ε} :
    xs.mapM f = .error error ↔
      ∃ x, IsFirst (fun x => ∃ error, f x = .error error) xs x ∧ f x = .error error := by
  induction xs with
  | nil => exact ⟨nofun, fun ⟨_, first, _⟩ => nomatch first⟩
  | cons y xs ih =>
    rw [List.mapM_cons]
    cases head : f y with
    | error earlier => simp [isFirst_cons, head, bind, Except.bind]
    | ok z =>
      simp only [isFirst_cons, head, reduceCtorEq, exists_false, false_and, not_false_eq_true,
        true_and, false_or, ← ih]
      cases xs.mapM f with
      | error later => rfl
      | ok rest => exact ⟨nofun, nofun⟩

/-- What is read off a result shows that there is one. -/
theorem exists_ok_of_toOption_map {ε α β : Type} {result : Except ε α} {f : α → β} {y : β}
    (read : result.toOption.map f = some y) : ∃ x, result = .ok x ∧ f x = y := by
  cases result with
  | error error => cases read
  | ok x => exact ⟨x, rfl, Option.some.inj read⟩

theorem exists_right_of_forall₂ {α β : Type} {R : α → β → Prop} {xs : List α} {ys : List β}
    (related : List.Forall₂ R xs ys) {x : α} (member : x ∈ xs) : ∃ y ∈ ys, R x y := by
  induction related with
  | nil => cases member
  | @cons first other xs ys head tail ih =>
    rcases List.mem_cons.mp member with rfl | inside
    · exact ⟨other, List.mem_cons_self, head⟩
    · obtain ⟨y, found, holds⟩ := ih inside
      exact ⟨y, List.mem_cons_of_mem _ found, holds⟩

theorem exists_left_of_forall₂ {α β : Type} {R : α → β → Prop} {xs : List α} {ys : List β}
    (related : List.Forall₂ R xs ys) {y : β} (member : y ∈ ys) : ∃ x ∈ xs, R x y :=
  exists_right_of_forall₂ related.flip member

/-- First elements of related lists are related, if the properties agree on related elements. -/
theorem IsFirst.of_forall₂ {α β : Type} {P : α → Prop} {Q : β → Prop} {R : α → β → Prop}
    {xs : List α} {ys : List β} (related : List.Forall₂ R xs ys)
    (same : ∀ x y, R x y → (P x ↔ Q y)) {y : β} (first : IsFirst Q ys y) :
    ∃ x, IsFirst P xs x ∧ R x y := by
  induction related with
  | nil => cases first
  | @cons x' y' xs ys head tail ih =>
    cases first with
    | head holds => exact ⟨x', .head ((same _ _ head).mpr holds), head⟩
    | tail fails later =>
      obtain ⟨x, found, paired⟩ := ih later
      exact ⟨x, .tail (mt (same _ _ head).mp fails) found, paired⟩

/-- Where every element is related to something, there is a list related to the whole. -/
theorem exists_forall₂ {α β : Type} {R : α → β → Prop} {xs : List α}
    (total : ∀ x ∈ xs, ∃ y, R x y) : ∃ ys, List.Forall₂ R xs ys := by
  induction xs with
  | nil => exact ⟨[], .nil⟩
  | cons x xs ih =>
    obtain ⟨y, head⟩ := total x List.mem_cons_self
    obtain ⟨ys, rest⟩ := ih fun other member => total other (List.mem_cons_of_mem _ member)
    exact ⟨y :: ys, .cons head rest⟩

theorem map_eq_map_of_forall₂ {α β γ : Type} {R : α → β → Prop} {f : α → γ} {g : β → γ}
    (equal : ∀ x y, R x y → f x = g y) {xs : List α} {ys : List β}
    (related : List.Forall₂ R xs ys) : xs.map f = ys.map g := by
  rw [← List.forall₂_eq_eq_eq, List.forall₂_map_left_iff, List.forall₂_map_right_iff]
  exact related.imp equal

namespace Alphabet

/-- The name means the symbol. -/
def Means (alphabet : Alphabet) (name : Name) (symbol : Symbol) : Prop :=
  alphabet.symbol? name = some symbol

theorem lookup_eq_ok_iff {alphabet : Alphabet} {name : Name} {symbol : Symbol} :
    alphabet.lookup name = .ok symbol ↔ alphabet.Means name symbol := by
  unfold lookup Means
  cases alphabet.symbol? name <;> simp

theorem encode_eq_ok_iff {alphabet : Alphabet} {names : List Name} {word : List Symbol} :
    alphabet.encode names = .ok word ↔ List.Forall₂ alphabet.Means names word := by
  simp only [encode, mapM_eq_ok_iff, lookup_eq_ok_iff]

theorem lookup_eq_error_iff {alphabet : Alphabet} {name : Name} {error : Error} :
    alphabet.lookup name = .error error ↔
      alphabet.symbol? name = none ∧ error = .unknownSymbol name := by
  unfold lookup
  cases alphabet.symbol? name <;> simp [eq_comm]

theorem encode_eq_error_iff {alphabet : Alphabet} {names : List Name} {error : Error} :
    alphabet.encode names = .error error ↔
      ∃ name, IsFirst (fun name => alphabet.symbol? name = none) names name ∧
        error = .unknownSymbol name := by
  simp only [encode, mapM_eq_error_iff, lookup_eq_error_iff, exists_and_left, exists_eq, and_true]
  constructor
  · intro ⟨name, first, _, reported⟩
    exact ⟨name, first, reported⟩
  · intro ⟨name, first, reported⟩
    exact ⟨name, first, first.holds, reported⟩

/-- Encoding fails exactly when some name has no symbol. -/
theorem exists_encode_error_iff {alphabet : Alphabet} {names : List Name} :
    (∃ error, alphabet.encode names = .error error) ↔
      ∃ name ∈ names, alphabet.symbol? name = none := by
  simp only [encode_eq_error_iff]
  constructor
  · intro ⟨_, name, first, _⟩
    exact ⟨name, first.mem, first.holds⟩
  · intro unknown
    obtain ⟨name, first⟩ := exists_isFirst unknown
    exact ⟨_, name, first, rfl⟩

@[simp] theorem decode_nil (alphabet : Alphabet) : alphabet.decode [] = [] := rfl

@[simp] theorem decode_append (alphabet : Alphabet) (word word' : List Symbol) :
    alphabet.decode (word ++ word') = alphabet.decode word ++ alphabet.decode word' := by
  simp [decode]

end Alphabet

end Lindenmayer
