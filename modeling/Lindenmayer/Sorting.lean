/-!
# Sorted lists

Lists are sorted by putting one element after another where it belongs.  Once they are sorted, equal
elements stand side by side, and erasing repetitions leaves each of them once.
-/

namespace Lindenmayer

section

variable {α : Type} [Ord α]

/-- Puts an element in front of the first one that it is not above. -/
def insertInOrder (x : α) : List α → List α
  | [] => [x]
  | y :: rest => if (compare x y).isLE then x :: y :: rest else y :: insertInOrder x rest

/-- The elements of a list in order, repetitions kept. -/
def inOrder (xs : List α) : List α := xs.foldr insertInOrder []

/-! ### Members -/

theorem perm_insertInOrder (x : α) (xs : List α) : (insertInOrder x xs).Perm (x :: xs) := by
  induction xs with
  | nil => exact List.Perm.refl _
  | cons y rest ih =>
    unfold insertInOrder
    split
    · exact List.Perm.refl _
    · exact (ih.cons y).trans (List.Perm.swap x y rest)

theorem perm_inOrder (xs : List α) : (inOrder xs).Perm xs := by
  induction xs with
  | nil => exact List.Perm.refl _
  | cons x xs ih => exact (perm_insertInOrder x (inOrder xs)).trans (ih.cons x)

@[simp] theorem mem_inOrder {x : α} {xs : List α} : x ∈ inOrder xs ↔ x ∈ xs :=
  (perm_inOrder xs).mem_iff

/-! ### Order -/

variable [Std.TransOrd α]

theorem pairwise_insertInOrder (x : α) {xs : List α}
    (sorted : xs.Pairwise fun a b => (compare a b).isLE = true) :
    (insertInOrder x xs).Pairwise fun a b => (compare a b).isLE = true := by
  induction xs with
  | nil => exact List.pairwise_singleton _ x
  | cons y rest ih =>
    obtain ⟨first, sorted⟩ := List.pairwise_cons.mp sorted
    unfold insertInOrder
    split
    · rename_i below
      refine List.pairwise_cons.mpr ⟨fun z member => ?_, List.pairwise_cons.mpr ⟨first, sorted⟩⟩
      rcases List.mem_cons.mp member with rfl | later
      · exact below
      · exact Std.TransCmp.isLE_trans below (first z later)
    · rename_i notBelow
      rw [Ordering.isLE_iff_ne_gt, Decidable.not_not, Std.OrientedCmp.gt_iff_lt] at notBelow
      have above : (compare y x).isLE = true := Ordering.isLE_of_eq_lt notBelow
      refine List.pairwise_cons.mpr ⟨fun z member => ?_, ih sorted⟩
      rcases List.mem_cons.mp ((perm_insertInOrder x rest).mem_iff.mp member) with rfl | later
      · exact above
      · exact first z later

theorem pairwise_inOrder (xs : List α) :
    (inOrder xs).Pairwise fun a b => (compare a b).isLE = true := by
  induction xs with
  | nil => exact List.Pairwise.nil
  | cons x xs ih => exact pairwise_insertInOrder x ih

end

/-! ### Repetitions -/

section

variable {α : Type} [BEq α]

theorem eraseRepsBy_loop_eq (x : α) (xs erased : List α) :
    List.eraseRepsBy.loop (· == ·) x xs erased =
      erased.reverse ++ List.eraseRepsBy.loop (· == ·) x xs [] := by
  induction xs generalizing x erased with
  | nil => exact List.reverse_cons
  | cons y rest ih =>
    cases same : x == y with
    | true => simp only [List.eraseRepsBy.loop, same, ih x erased]
    | false =>
      simp only [List.eraseRepsBy.loop, same]
      rw [ih y (x :: erased), ih y [x], List.reverse_cons, List.append_assoc]
      rfl

/-- Of equal neighbours the first one is kept. -/
theorem eraseReps_cons_cons (x y : α) (rest : List α) :
    (x :: y :: rest).eraseReps =
      if x == y then (x :: rest).eraseReps else x :: (y :: rest).eraseReps := by
  cases same : x == y with
  | true => simp only [List.eraseReps, List.eraseRepsBy, List.eraseRepsBy.loop, same, if_true]
  | false =>
    simp only [List.eraseReps, List.eraseRepsBy, List.eraseRepsBy.loop, same]
    exact eraseRepsBy_loop_eq y rest [x]

variable [LawfulBEq α]

@[simp] theorem mem_eraseReps {x : α} {xs : List α} : x ∈ xs.eraseReps ↔ x ∈ xs := by
  cases xs with
  | nil => rfl
  | cons y rest =>
    induction rest generalizing y with
    | nil => rfl
    | cons z rest ih =>
      rw [eraseReps_cons_cons]
      split
      · rename_i same
        rw [ih y, eq_of_beq same]
        simp
      · rw [List.mem_cons, ih z, ← List.mem_cons]

/-- In a sorted list only neighbours can be equal, so without repetitions it ascends. -/
theorem pairwise_eraseReps [Ord α] [Std.TransOrd α] [Std.LawfulEqOrd α] {xs : List α}
    (sorted : xs.Pairwise fun a b => (compare a b).isLE = true) :
    xs.eraseReps.Pairwise fun a b => compare a b = .lt := by
  cases xs with
  | nil => exact List.Pairwise.nil
  | cons x rest =>
    induction rest generalizing x with
    | nil => exact List.pairwise_singleton _ x
    | cons y rest ih =>
      obtain ⟨first, later⟩ := List.pairwise_cons.mp sorted
      rw [eraseReps_cons_cons]
      split
      · rename_i same
        rw [eq_of_beq same]
        exact ih y later
      · rename_i apart
        have less : compare x y = .lt := by
          rcases Ordering.isLE_iff_eq_lt_or_eq_eq.mp (first y List.mem_cons_self) with less | same
          · exact less
          · exact absurd (beq_iff_eq.mpr (Std.LawfulEqOrd.eq_of_compare same)) apart
        refine List.pairwise_cons.mpr ⟨fun z member => ?_, ih y later⟩
        rcases List.mem_cons.mp (mem_eraseReps.mp member) with rfl | behind
        · exact less
        · exact Std.TransCmp.lt_of_lt_of_isLE less ((List.pairwise_cons.mp later).1 z behind)

end

end Lindenmayer
