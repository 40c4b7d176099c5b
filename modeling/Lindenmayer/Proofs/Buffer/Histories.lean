import Mathlib.Data.List.DropRight
import Mathlib.Data.List.Infix
import Mathlib.Logic.Relation
import Lindenmayer.Proofs.Growth.Storage

/-!
# Histories of a buffer

A buffer can be appended to, cleared and copied, in any order.  Its word is what has been appended
since the last clearing, and its capacity depends on nothing but the capacity that it began with and
the greatest length that the word has had.  In particular it makes no difference how the symbols
were grouped when they were appended.
-/

namespace Lindenmayer.Buffer

/-! ### Growing in several goes -/

/-- One round of the loop that doubles a capacity. -/
def Round (required before after : Nat) : Prop := before < required ∧ after = 2 * before

theorem rounds_doubled (required capacity : Nat) (positive : 0 < capacity) :
    Relation.ReflTransGen (Round required) capacity (doubled required capacity positive) := by
  fun_induction doubled required capacity positive with
  | case1 capacity positive short ih => exact .head ⟨short, rfl⟩ ih
  | case2 => exact .refl

/-- The loop ends at the capacity that it is run for. -/
theorem rounds_grown {required capacity : Nat} (short : capacity < required) :
    Relation.ReflTransGen (Round required) (max capacity 1) (grown required capacity) := by
  rw [grown, if_neg (Nat.not_le.mpr short)]
  exact rounds_doubled required (max capacity 1) _

theorem doubled_doubled {first second capacity : Nat} (positive : 0 < capacity)
    (ascending : first ≤ second) (positive' : 0 < doubled first capacity positive) :
    doubled second (doubled first capacity positive) positive' =
      doubled second capacity positive := by
  fun_induction doubled first capacity positive with
  | case1 capacity positive short ih =>
    rw [ih, doubled.eq_1 second capacity, if_pos (Nat.lt_of_lt_of_le short ascending)]
  | case2 => rfl

/-- A capacity that grows for one length and then for another grows for the greater of the two. -/
theorem grown_grown (first second capacity : Nat) :
    grown second (grown first capacity) = grown (max first second) capacity := by
  rcases Nat.le_total second first with descending | ascending
  · rw [Nat.max_eq_left descending, grown,
      if_pos (Nat.le_trans descending (le_grown first capacity))]
  rw [Nat.max_eq_right ascending]
  by_cases enough : first ≤ capacity
  · rw [grown.eq_1 first capacity, if_pos enough]
  · -- The capacity that the loop starts from both times is positive.
    have unchanged : grown second capacity = doubled second (max capacity 1) (by omega) := by
      rw [grown, if_neg (by omega)]
    rw [unchanged, grown.eq_1 first capacity, if_neg enough,
      grown_of_pos second (Nat.lt_of_lt_of_le (by omega) (capacity_le_doubled first _ _)),
      doubled_doubled (by omega) ascending]

theorem append_append (buffer : Buffer) (first second : List Symbol) :
    (buffer.append first).append second = buffer.append (first ++ second) := by
  have capacity : grown (buffer.size + first.length + second.length)
      (grown (buffer.size + first.length) buffer.capacity) =
        grown (buffer.size + (first ++ second).length) buffer.capacity := by
    rw [grown_grown, List.length_append, ← Nat.add_assoc, Nat.max_eq_right (Nat.le_add_right _ _)]
  rw [append, size_append, append, append, capacity]
  congr 1
  exact Array.toList_inj.mp (by simp)

theorem append_nil {buffer : Buffer} (fits : buffer.size ≤ buffer.capacity) :
    buffer.append [] = buffer := by
  rw [append, List.length_nil, Nat.add_zero, grown, if_pos fits]
  simp

/-! ### Operations -/

/-- What can be done to a buffer. -/
inductive Operation where
  | push (symbol : Symbol)
  | append (word : List Symbol)
  | clear
  /-- Goes on with a copy. -/
  | copy
  deriving DecidableEq

/-- The buffer after an operation. -/
def perform (buffer : Buffer) : Operation → Buffer
  | .push symbol => buffer.push symbol
  | .append word => buffer.append word
  | .clear => buffer.clear
  | .copy => ⟨buffer.symbols, buffer.capacity⟩

/-- The buffer after a history. -/
def run (history : List Operation) (buffer : Buffer) : Buffer := history.foldl perform buffer

/-- The symbols that an operation appends. -/
def Operation.word : Operation → List Symbol
  | .push symbol => [symbol]
  | .append word => word
  | .clear | .copy => []

/-- The symbols appended since the last clearing, in order. -/
def appended (history : List Operation) : List Symbol :=
  (history.rtakeWhile (· ≠ .clear)).flatMap Operation.word

/-- The greatest length reached in the course of a history. -/
def peak (history : List Operation) : Nat :=
  (history.inits.map fun front => (appended front).length).foldl max 0

/-- The history in which every symbol is appended on its own. -/
def ungrouped (history : List Operation) : List Operation :=
  history.flatMap fun
    | .append word => word.map .push
    | operation => [operation]

theorem run_append (front back : List Operation) (buffer : Buffer) :
    run (front ++ back) buffer = run back (run front buffer) := List.foldl_append

theorem run_concat (front : List Operation) (operation : Operation) (buffer : Buffer) :
    run (front ++ [operation]) buffer = (run front buffer).perform operation :=
  run_append front [operation] buffer

theorem appended_concat (front : List Operation) (operation : Operation) :
    appended (front ++ [operation]) =
      if operation = .clear then [] else appended front ++ operation.word := by
  rw [appended, List.rtakeWhile_concat]
  by_cases clears : operation = .clear
  · simp [clears]
  · simp [clears, appended]

theorem peak_concat (front : List Operation) (operation : Operation) :
    peak (front ++ [operation]) =
      max (peak front) (appended (front ++ [operation])).length := by
  simp [peak, List.inits_append, List.foldl_append]

theorem length_appended_le_peak (history : List Operation) :
    (appended history).length ≤ peak history := by
  induction history using List.reverseRecOn with
  | nil => exact Nat.le_refl 0
  | append_singleton front operation _ =>
    rw [peak_concat]
    exact Nat.le_max_right _ _

/-! ### What a history decides -/

/-- Appending to a buffer that grew for the greatest length so far. -/
theorem append_grown (word added : List Symbol) (reached initial : Nat) :
    append ⟨word.toArray, grown reached initial⟩ added =
      ⟨(word ++ added).toArray, grown (max reached (word ++ added).length) initial⟩ := by
  simp [append, size, grown_grown]

/-- What was appended since the last clearing and the greatest length so far make up the buffer. -/
theorem run_eq (history : List Operation) (initial : Nat) :
    run history ⟨#[], initial⟩ = ⟨(appended history).toArray, grown (peak history) initial⟩ := by
  induction history using List.reverseRecOn with
  | nil => rfl
  | append_singleton front operation ih =>
    rw [run_concat, ih, peak_concat, appended_concat]
    have below := length_appended_le_peak front
    cases operation with
    | push symbol =>
      rw [perform, push_eq_append, append_grown]
      rfl
    | append word =>
      rw [perform, append_grown]
      rfl
    | clear => simp [perform, clear]
    | copy => simp [perform, Operation.word, Nat.max_eq_left below]

theorem size_le_capacity_perform {buffer : Buffer} (fits : buffer.size ≤ buffer.capacity)
    (operation : Operation) :
    (buffer.perform operation).size ≤ (buffer.perform operation).capacity := by
  cases operation with
  | push symbol =>
    rw [perform, push_eq_append]
    exact size_le_capacity_append buffer [symbol]
  | append word => exact size_le_capacity_append buffer word
  | clear => exact Nat.zero_le _
  | copy => exact fits

theorem run_map_push {buffer : Buffer} (fits : buffer.size ≤ buffer.capacity)
    (word : List Symbol) : run (word.map .push) buffer = buffer.append word := by
  induction word generalizing buffer with
  | nil => exact (append_nil fits).symm
  | cons symbol word ih =>
    have pushed := size_le_capacity_perform fits (.push symbol)
    calc run ((symbol :: word).map .push) buffer
        = (buffer.perform (.push symbol)).append word := ih pushed
      _ = buffer.append (symbol :: word) := by
        rw [perform, push_eq_append, append_append]
        rfl

/-- Symbols that are appended together may as well be appended one by one. -/
theorem run_ungrouped {buffer : Buffer} (fits : buffer.size ≤ buffer.capacity)
    (history : List Operation) : run (ungrouped history) buffer = run history buffer := by
  induction history generalizing buffer with
  | nil => rfl
  | cons operation rest ih =>
    have first : run (ungrouped [operation]) buffer = buffer.perform operation := by
      cases operation with
      | append word =>
        rw [ungrouped, List.flatMap_singleton]
        exact run_map_push fits word
      | push _ | clear | copy => rfl
    calc run (ungrouped (operation :: rest)) buffer
        = run (ungrouped rest) (run (ungrouped [operation]) buffer) := by
          rw [← run_append, ungrouped, ungrouped, ungrouped, ← List.flatMap_append]
          rfl
      _ = run rest (buffer.perform operation) := by
          rw [first, ih (size_le_capacity_perform fits operation)]

/-- A buffer after any history.  Its word is what was appended since the last clearing.  Its
capacity is the least that holds the greatest length reached, of those that the initial one becomes
by doubling; a buffer for which nothing was set aside starts from capacity 1, but only once there is
a symbol to hold.  Appending the symbols one by one leads to the same buffer, and whenever a
capacity is too small, the loop that doubles it comes to an end. -/
theorem capacity_of_history (history : List Operation) :
    (∀ capacity,
      (run history (ofCapacity capacity)).toList = appended history ∧
      ∃ k, IsLeast {k | peak history ≤ max capacity 1 * 2 ^ k} k ∧
        (run history (ofCapacity capacity)).capacity = max capacity 1 * 2 ^ k) ∧
    (run history unallocated).toList = appended history ∧
    (peak history = 0 → (run history unallocated).capacity = 0) ∧
    (0 < peak history → ∃ k, IsLeast {k | peak history ≤ 2 ^ k} k ∧
      (run history unallocated).capacity = 2 ^ k) ∧
    (∀ buffer : Buffer, buffer.size ≤ buffer.capacity →
      run (ungrouped history) buffer = run history buffer) ∧
    ∀ required capacity, capacity < required →
      Relation.ReflTransGen (Round required) (max capacity 1) (grown required capacity) ∧
        ∀ next, ¬Round required (grown required capacity) next := by
  refine ⟨fun capacity => ?allocated, ?contents, ?empty, ?unallocated,
    fun _ fits => run_ungrouped fits history, fun required capacity short => ?loop⟩
  case allocated =>
    rw [ofCapacity, run_eq]
    exact ⟨rfl, exists_grown (peak history) (Nat.le_max_right capacity 1)⟩
  case contents => rw [unallocated, run_eq]; rfl
  case empty =>
    intro noPeak
    rw [unallocated, run_eq, noPeak]
    rfl
  case unallocated =>
    intro something
    obtain ⟨k, least, doubled⟩ := exists_doubled (peak history) 1 Nat.one_pos
    simp only [Nat.one_mul] at least doubled
    refine ⟨k, least, ?_⟩
    rw [unallocated, run_eq, ← doubled]
    exact if_neg (Nat.not_le.mpr something)
  case loop =>
    refine ⟨rounds_grown short, fun next another => ?_⟩
    exact Nat.not_lt.mpr (le_grown required capacity) another.1

/-- A history with a clearing, a copy, an empty word, and four symbols at the most. -/
def regrouped : List Operation :=
  [.append [.plain 1, .plain 2, .plain 3], .push (.counter 1 2), .clear, .copy, .append [],
    .append [.plain 4, .plain 5]]

theorem capacity_of_history_regrouped :
    ([ofCapacity 3, ofCapacity 0, unallocated].map fun buffer =>
      (run regrouped buffer).capacity) = [6, 4, 4] ∧
    (run regrouped (ofCapacity 3)).toList = [.plain 4, .plain 5] ∧
    (∃ k, IsLeast {k | peak regrouped ≤ max 3 1 * 2 ^ k} k ∧
      (run regrouped (ofCapacity 3)).capacity = max 3 1 * 2 ^ k) ∧
    0 < peak regrouped ∧
    (∃ k, IsLeast {k | peak regrouped ≤ 2 ^ k} k ∧
      (run regrouped unallocated).capacity = 2 ^ k) ∧
    (ofCapacity 3).size ≤ (ofCapacity 3).capacity ∧
    run (ungrouped regrouped) (ofCapacity 3) = run regrouped (ofCapacity 3) ∧
    3 < 4 ∧ Relation.ReflTransGen (Round 4) (max 3 1) (grown 4 3) := by
  obtain ⟨allocated, -, -, unallocated, together, loop⟩ := capacity_of_history regrouped
  have reached : 0 < peak regrouped := by decide
  have fits : (ofCapacity 3).size ≤ (ofCapacity 3).capacity := by decide
  have short : 3 < 4 := by decide
  exact ⟨by decide +kernel, (allocated 3).1, (allocated 3).2, reached, unallocated reached, fits,
    together _ fits, short, (loop 4 3 short).1⟩

end Lindenmayer.Buffer
