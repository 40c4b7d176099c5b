import Lindenmayer.Proofs.Decimal.Arithmetic
import Lindenmayer.Proofs.Sampler.Draws

/-!
# The weights that a sampler draws by

A sampler draws by the usable weights of a pool, which are divided by the largest one when their sum
overflows.  So the sum that it draws by never overflows, and no weight is above it, although sums
and quotients are rounded.
-/

namespace Lindenmayer.Sampler

open Decimal

/-- All weights are sizes of doubles. -/
def Sized (pool : List (Nat × Float)) : Prop :=
  ∀ entry ∈ pool, ∃ v : Magnitude, v.IsFinite ∧ entry.2 = v.double

theorem exists_eq_double_of_isUsable {weight : Float} (positive : isUsable weight = true) :
    ∃ v : Magnitude, v.IsFinite ∧ 0 < v.value ∧ weight = v.double := by
  obtain ⟨finite, pos⟩ := Bool.and_eq_true_iff.mp positive
  exact exists_eq_double finite (of_decide_eq_true pos)

variable {pool : List (Nat × Float)}

/-! ### Sums -/

theorem isFinite_of_isFinite_foldl {start : Float}
    (finite : (pool.foldl (fun total entry => total + entry.2) start).isFinite = true) :
    start.isFinite = true := by
  induction pool generalizing start with
  | nil => exact finite
  | cons entry pool ih => exact isFinite_of_isFinite_add (ih finite)

/-- Adding up sizes, no sum is below what has been added so far, as rounding respects the order. -/
theorem exists_foldl_add (sized : Sized pool) {start : Magnitude} (begun : start.IsFinite)
    (finite : (pool.foldl (fun total entry => total + entry.2) start.double).isFinite = true) :
    ∃ total : Magnitude, total.IsFinite ∧
      pool.foldl (fun total entry => total + entry.2) start.double = total.double ∧
      start.value ≤ total.value ∧ ∀ entry ∈ pool, size entry.2 ≤ total.value := by
  induction pool generalizing start with
  | nil => exact ⟨start, begun, rfl, le_rfl, by simp⟩
  | cons entry pool ih =>
    obtain ⟨v, small, weight⟩ := sized entry List.mem_cons_self
    obtain ⟨u, canonical, captures, sum⟩ := Magnitude.exists_sum begun small
    rw [List.foldl_cons, weight, sum] at finite ⊢
    have within := (Magnitude.isFinite_double_iff canonical).mp (isFinite_of_isFinite_foldl finite)
    obtain ⟨total, large, made, least, greatest⟩ :=
      ih (fun other member => sized other (List.mem_cons_of_mem _ member)) within finite
    have after := captures.le_value canonical begun.isCanonical
      (le_add_of_nonneg_right v.value_nonneg)
    have beyond := captures.le_value canonical small.isCanonical
      (le_add_of_nonneg_left start.value_nonneg)
    refine ⟨total, large, made, after.trans least, ?_⟩
    rintro other (- | ⟨_, member⟩)
    · rw [weight, size_double small]
      exact beyond.trans least
    · exact greatest other member

/-! ### Dividing by the largest weight -/

/-- The largest of some sizes is one that is not below any of them. -/
theorem exists_largestWeight (sized : Sized pool) :
    ∃ largest : Magnitude, largest.IsFinite ∧ largestWeight pool = largest.double ∧
      ∀ entry ∈ pool, size entry.2 ≤ largest.value := by
  suffices general : ∀ start : Magnitude, start.IsFinite → ∃ largest : Magnitude,
      largest.IsFinite ∧ pool.foldl (fun largest entry =>
        if largest < entry.2 then entry.2 else largest) start.double = largest.double ∧
      start.value ≤ largest.value ∧ ∀ entry ∈ pool, size entry.2 ≤ largest.value by
    obtain ⟨largest, finite, made, -, greatest⟩ := general .zero Magnitude.isFinite_zero
    rw [← Magnitude.zero_eq_double] at made
    exact ⟨largest, finite, made, greatest⟩
  induction pool with
  | nil => exact fun start begun => ⟨start, begun, rfl, le_rfl, by simp⟩
  | cons entry pool ih =>
    intro start begun
    obtain ⟨v, small, weight⟩ := sized entry List.mem_cons_self
    have rest := ih fun other member => sized other (List.mem_cons_of_mem _ member)
    rw [List.foldl_cons, weight]
    simp only [List.forall_mem_cons, weight, size_double small]
    split
    · rename_i less
      rw [Magnitude.double_lt_double begun small] at less
      obtain ⟨largest, finite, made, least, greatest⟩ := rest v small
      exact ⟨largest, finite, made, less.le.trans least, least, greatest⟩
    · rename_i more
      rw [Magnitude.double_lt_double begun small, not_lt] at more
      obtain ⟨largest, finite, made, least, greatest⟩ := rest start begun
      exact ⟨largest, finite, made, least, more.trans least, greatest⟩

/-- A sum of weights that are at most one never exceeds `2 ^ 53`, as adding one to that makes no
difference. -/
theorem exists_foldl_add_le (small : ∀ entry ∈ pool,
      ∃ v : Magnitude, v.IsFinite ∧ v.value ≤ 1 ∧ entry.2 = v.double)
    {start : Magnitude} (begun : start.IsFinite) (low : start.value ≤ Magnitude.ceiling.value) :
    ∃ total : Magnitude, total.IsFinite ∧
      pool.foldl (fun total entry => total + entry.2) start.double = total.double := by
  induction pool generalizing start with
  | nil => exact ⟨start, begun, rfl⟩
  | cons entry pool ih =>
    obtain ⟨v, finite, part, weight⟩ := small entry List.mem_cons_self
    have rest := fun other member => small other (List.mem_cons_of_mem _ member)
    rw [List.foldl_cons, weight]
    rcases le_or_gt (start.value + v.value) Magnitude.ceiling.value with below | above
    · obtain ⟨u, canonical, captures, sum⟩ := Magnitude.exists_sum begun finite
      have still := captures.value_le canonical Magnitude.isFinite_ceiling.isCanonical below
      rw [sum]
      exact ih rest (canonical.isFinite_of_value_le Magnitude.isFinite_ceiling still) still
    · rw [Magnitude.value_ceiling] at low above
      have captures := Magnitude.captures_ceiling above.le (by linarith)
      rw [Magnitude.double_add begun finite Magnitude.isFinite_ceiling.isCanonical captures]
      exact ih rest Magnitude.isFinite_ceiling le_rfl

/-- Weights that are at most one are within the range of doubles together with their sum. -/
theorem within_of_small (small : ∀ entry ∈ pool,
      ∃ v : Magnitude, v.IsFinite ∧ v.value ≤ 1 ∧ entry.2 = v.double) :
    Sized pool ∧ (totalWeight pool).isFinite = true := by
  have bounded : Magnitude.zero.value ≤ Magnitude.ceiling.value := by
    rw [Magnitude.value_zero]
    exact Magnitude.ceiling.value_nonneg
  obtain ⟨total, finite, sum⟩ := exists_foldl_add_le small Magnitude.isFinite_zero bounded
  refine ⟨fun entry member => ?_, ?_⟩
  · obtain ⟨v, within, -, weight⟩ := small entry member
    exact ⟨v, within, weight⟩
  · rw [totalWeight, Magnitude.zero_eq_double, sum]
    exact (Magnitude.isFinite_double_iff finite.isCanonical).mpr finite

/-! ### What is drawn by -/

theorem sized_filter (pool : List (Nat × Float)) :
    Sized (pool.filter fun entry => isUsable entry.2) := by
  intro entry member
  obtain ⟨v, finite, -, weight⟩ :=
    exists_eq_double_of_isUsable (List.mem_filter.mp member).2
  exact ⟨v, finite, weight⟩

/-- Divided by the largest one, weights are at most one. -/
theorem exists_scaled_of_mem {entry : Nat × Float}
    (member : entry ∈ pool.filter fun entry => isUsable entry.2) :
    ∃ q : Magnitude, q.IsFinite ∧ q.value ≤ 1 ∧
      entry.2 / largestWeight (pool.filter fun entry => isUsable entry.2) = q.double := by
  obtain ⟨largest, large, found, greatest⟩ := exists_largestWeight (sized_filter pool)
  obtain ⟨v, finite, pos, weight⟩ :=
    exists_eq_double_of_isUsable (List.mem_filter.mp member).2
  have le := greatest entry member
  rw [weight, size_double finite] at le
  obtain ⟨q, within, -, part, quotient⟩ :=
    Magnitude.exists_quotient finite large (lt_of_lt_of_le pos le) le
  exact ⟨q, within, part, by rw [weight, found, quotient]⟩

/-- The weights that are drawn by are sizes whose sum does not overflow. -/
theorem weighted_within (pool : List (Nat × Float)) :
    Sized (weighted pool) ∧ (totalWeight (weighted pool)).isFinite = true := by
  unfold weighted rescale
  split
  · rename_i finite
    exact ⟨sized_filter pool, finite⟩
  · refine within_of_small fun entry member => ?_
    obtain ⟨other, listed, rfl⟩ := List.mem_map.mp member
    exact exists_scaled_of_mem listed

/-- No weight that is drawn by is above the sum of them. -/
theorem exists_totalWeight (pool : List (Nat × Float)) :
    ∃ total : Magnitude, total.IsFinite ∧ totalWeight (weighted pool) = total.double ∧
      ∀ entry ∈ weighted pool, size entry.2 ≤ total.value := by
  obtain ⟨sized, finite⟩ := weighted_within pool
  unfold totalWeight at finite ⊢
  rw [Magnitude.zero_eq_double] at finite ⊢
  obtain ⟨total, within, sum, -, greatest⟩ :=
    exists_foldl_add sized Magnitude.isFinite_zero finite
  exact ⟨total, within, sum, greatest⟩

end Lindenmayer.Sampler
