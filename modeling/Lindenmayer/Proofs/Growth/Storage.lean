import Mathlib.Algebra.Group.Nat.Defs
import Mathlib.Data.List.Forall2
import Mathlib.Order.Bounds.Defs
import Mathlib.Order.MinMax
import Lindenmayer.Proofs.Alphabet.Encoding
import Lindenmayer.Proofs.Growth.Lanes

/-!
# Storage

The capacity of a buffer is the one that it began with, doubled a number of times.  Whatever is done
to a lane keeps its buffers large enough and gives back none of their storage, whether it writes,
swaps, clears or is reset, and so does spreading the word of one lane over a pool.
-/

namespace Lindenmayer

/-! ### Buffers -/

namespace Buffer

/-- The loop doubles a capacity no more often than it has to. -/
theorem exists_doubled (required capacity : Nat) (positive : 0 < capacity) :
    ∃ k, IsLeast {k | required ≤ capacity * 2 ^ k} k ∧
      doubled required capacity positive = capacity * 2 ^ k := by
  fun_induction doubled required capacity positive with
  | case1 capacity positive short ih =>
    obtain ⟨k, ⟨reached, least⟩, doubled⟩ := ih
    have shift : ∀ j, 2 * capacity * 2 ^ j = capacity * 2 ^ (j + 1) := by
      intro j
      rw [Nat.pow_succ', ← Nat.mul_assoc, Nat.mul_comm 2 capacity]
    refine ⟨k + 1, ⟨?_, ?_⟩, by rw [doubled, shift]⟩
    · rwa [Set.mem_ofPred_eq, ← shift]
    · intro j enough
      cases j with
      | zero =>
        rw [Set.mem_ofPred_eq, Nat.pow_zero, Nat.mul_one] at enough
        exact absurd enough (Nat.not_le.mpr short)
      | succ j =>
        rw [Set.mem_ofPred_eq, ← shift] at enough
        exact Nat.succ_le_succ (least enough)
  | case2 capacity positive enough =>
    refine ⟨0, ⟨?_, fun _ _ => Nat.zero_le _⟩, (Nat.mul_one capacity).symm⟩
    rw [Set.mem_ofPred_eq, Nat.pow_zero, Nat.mul_one]
    exact Nat.le_of_not_lt enough

theorem grown_of_pos (required : Nat) {capacity : Nat} (positive : 0 < capacity) :
    grown required capacity = doubled required capacity positive := by
  unfold grown
  split
  next enough => rw [doubled, if_neg (Nat.not_lt.mpr enough)]
  next => congr 1; exact Nat.max_eq_left positive

/-- A positive capacity grows by doubling, no more often than it has to. -/
theorem exists_grown (required : Nat) {capacity : Nat} (positive : 0 < capacity) :
    ∃ k, IsLeast {k | required ≤ capacity * 2 ^ k} k ∧
      grown required capacity = capacity * 2 ^ k := by
  rw [grown_of_pos required positive]
  exact exists_doubled required capacity positive

theorem size_append (buffer : Buffer) (word : List Symbol) :
    (buffer.append word).size = buffer.size + word.length := by
  rw [← length_toList, toList_append, List.length_append, length_toList]

theorem size_le_capacity_append (buffer : Buffer) (word : List Symbol) :
    (buffer.append word).size ≤ (buffer.append word).capacity := by
  rw [size_append]
  exact le_grown _ buffer.capacity

/-- The word fits, and the capacity is an initial one doubled a number of times. -/
structure Sized (initial : Nat) (buffer : Buffer) : Prop where
  size_le : buffer.size ≤ buffer.capacity
  doublings : ∃ k, buffer.capacity = initial * 2 ^ k

variable {initial : Nat} {buffer : Buffer}

theorem sized_ofCapacity (positive : 0 < initial) : (ofCapacity initial).Sized initial where
  size_le := Nat.zero_le _
  doublings := ⟨0, by rw [ofCapacity, Nat.max_eq_left positive, Nat.pow_zero, Nat.mul_one]⟩

theorem Sized.clear (sized : buffer.Sized initial) : buffer.clear.Sized initial where
  size_le := Nat.zero_le _
  doublings := sized.doublings

theorem Sized.append (positive : 0 < initial) (sized : buffer.Sized initial) (word : List Symbol) :
    (buffer.append word).Sized initial where
  size_le := size_le_capacity_append buffer word
  doublings := by
    obtain ⟨k, capacity⟩ := sized.doublings
    have allocated : 0 < buffer.capacity := by
      rw [capacity]
      exact Nat.mul_pos positive (Nat.two_pow_pos k)
    obtain ⟨k', -, grown⟩ := exists_grown (buffer.size + word.length) allocated
    refine ⟨k + k', ?_⟩
    rw [Buffer.append, grown, capacity, Nat.mul_assoc, Nat.pow_add]

theorem capacity_le_append (buffer : Buffer) (word : List Symbol) :
    buffer.capacity ≤ (buffer.append word).capacity := capacity_le_grown _ _

theorem push_eq_append (buffer : Buffer) (symbol : Symbol) :
    buffer.push symbol = buffer.append [symbol] := by
  simp [push, append]

end Buffer

/-! ### Lanes -/

namespace Lane

/-- The smaller one of the capacities of the two buffers. -/
def smallerCapacity (lane : Lane) : Nat := min lane.read.capacity lane.write.capacity

/-- The larger one of the capacities of the two buffers. -/
def largerCapacity (lane : Lane) : Nat := max lane.read.capacity lane.write.capacity

/-- Both buffers are sized. -/
structure Sized (initial : Nat) (lane : Lane) : Prop where
  read : lane.read.Sized initial
  write : lane.write.Sized initial

/-- What a lane becomes is sized if it was, and it has given back no storage. -/
structure GrowsInto (initial : Nat) (lane after : Lane) : Prop where
  sized : lane.Sized initial → after.Sized initial
  smaller_le : lane.smallerCapacity ≤ after.smallerCapacity
  larger_le : lane.largerCapacity ≤ after.largerCapacity

variable {initial : Nat} {lane : Lane}

namespace GrowsInto

theorem refl (initial : Nat) (lane : Lane) : GrowsInto initial lane lane :=
  ⟨id, Nat.le_refl _, Nat.le_refl _⟩

theorem trans {after later : Lane} (front : GrowsInto initial lane after)
    (back : GrowsInto initial after later) : GrowsInto initial lane later where
  sized sized := back.sized (front.sized sized)
  smaller_le := front.smaller_le.trans back.smaller_le
  larger_le := front.larger_le.trans back.larger_le

end GrowsInto

theorem growsInto_append (positive : 0 < initial) (lane : Lane) (word : List Symbol) :
    GrowsInto initial lane (lane.append word) where
  sized sized := ⟨sized.read, sized.write.append positive word⟩
  smaller_le := min_le_min_left _ (lane.write.capacity_le_append word)
  larger_le := max_le_max_left _ (lane.write.capacity_le_append word)

theorem growsInto_swap (initial : Nat) (lane : Lane) : GrowsInto initial lane lane.swap where
  sized sized := ⟨sized.write, sized.read.clear⟩
  smaller_le := Nat.le_of_eq (Nat.min_comm _ _)
  larger_le := Nat.le_of_eq (Nat.max_comm _ _)

theorem growsInto_clear (initial : Nat) (lane : Lane) : GrowsInto initial lane lane.clear where
  sized sized := ⟨sized.read.clear, sized.write.clear⟩
  smaller_le := Nat.le_refl _
  larger_le := Nat.le_refl _

theorem growsInto_reset (positive : 0 < initial) (lane : Lane) (start : Symbol) :
    GrowsInto initial lane (lane.reset start) where
  sized sized := by
    refine ⟨?_, sized.write.clear⟩
    rw [reset, Buffer.push_eq_append]
    exact sized.read.clear.append positive [start]
  smaller_le := by
    rw [reset, Buffer.push_eq_append]
    exact min_le_min_right _ (lane.read.clear.capacity_le_append [start])
  larger_le := by
    rw [reset, Buffer.push_eq_append]
    exact max_le_max_right _ (lane.read.clear.capacity_le_append [start])

variable {G : Type} [WordSource G]

/-- A pass appends one replacement after another to the write buffer. -/
theorem growsInto_deriveBehind (positive : 0 < initial) (system : LSystem) (predecessor : Symbol)
    (word : List Symbol) (lane : Lane) (source : G) :
    GrowsInto initial lane
      ⟨lane.read, (system.deriveBehind predecessor word lane.write source).1⟩ := by
  induction word generalizing predecessor lane source with
  | nil => exact .refl initial lane
  | cons symbol rest ih =>
    rw [LSystem.deriveBehind_cons]
    have first := growsInto_append positive lane (system.replacement predecessor symbol source).1
    exact first.trans (ih symbol (lane.append _) _)

theorem growsInto_step (positive : 0 < initial) (system : LSystem) (lane : Lane) (source : G) :
    GrowsInto initial lane (lane.step system source).1 :=
  (growsInto_deriveBehind positive system system.alphabet.boundary lane.word lane source).trans
    (growsInto_swap initial _)

theorem growsInto_stepN (positive : 0 < initial) (system : LSystem) (count : Nat) (lane : Lane)
    (source : G) : GrowsInto initial lane (lane.stepN system count source).1 := by
  induction count generalizing lane source with
  | zero => exact .refl initial lane
  | succ count ih =>
    rw [stepN_succ]
    exact (growsInto_step positive system lane source).trans (ih _ _)

end Lane

/-! ### Pools -/

theorem forall₂_trans {α : Type} {R : α → α → Prop} (trans : ∀ {x y z}, R x y → R y z → R x z)
    {xs ys zs : List α} (front : List.Forall₂ R xs ys) (back : List.Forall₂ R ys zs) :
    List.Forall₂ R xs zs := by
  induction front generalizing zs with
  | nil => exact back
  | cons first _ ih =>
    cases back with
    | cons second rest => exact .cons (trans first second) (ih rest)

theorem forall₂_mapIdx {α : Type} {R : α → α → Prop} {f : Nat → α → α} (xs : List α)
    (related : ∀ index x, R x (f index x)) : List.Forall₂ R xs (xs.mapIdx f) := by
  induction xs generalizing f with
  | nil => exact .nil
  | cons x xs ih =>
    rw [List.mapIdx_cons]
    exact .cons (related 0 x) (ih fun index => related (index + 1))

namespace Pool

/-- All lanes are sized. -/
def Sized (initial : Nat) (pool : Pool) : Prop := ∀ lane ∈ pool.lanes, lane.Sized initial

/-- Each lane has become one that it may grow into. -/
def GrowsInto (initial : Nat) (pool after : Pool) : Prop :=
  List.Forall₂ (Lane.GrowsInto initial) pool.lanes after.lanes

variable {initial : Nat} {pool after later : Pool}

theorem GrowsInto.trans (front : pool.GrowsInto initial after)
    (back : after.GrowsInto initial later) : pool.GrowsInto initial later :=
  forall₂_trans (R := Lane.GrowsInto initial) Lane.GrowsInto.trans front back

theorem GrowsInto.sized (grows : pool.GrowsInto initial after) (sized : pool.Sized initial) :
    after.Sized initial := by
  intro lane member
  obtain ⟨before, held, grown⟩ := exists_left_of_forall₂ grows member
  exact grown.sized (sized before held)

theorem sized_ofLanes (positive : 0 < initial) (count : Nat) :
    (ofLanes count initial).Sized initial := by
  intro lane member
  obtain rfl := List.eq_of_mem_replicate member
  exact ⟨Buffer.sized_ofCapacity positive, Buffer.sized_ofCapacity positive⟩

theorem growsInto_reset (positive : 0 < initial) (pool : Pool) (start : Symbol) :
    pool.GrowsInto initial (pool.reset start) := by
  obtain ⟨lanes⟩ := pool
  cases lanes with
  | nil => exact .nil
  | cons first rest =>
    refine .cons (first.growsInto_reset positive start) ?_
    rw [List.forall₂_map_right_iff]
    exact List.forall₂_same.mpr fun lane _ => lane.growsInto_clear initial

theorem growsInto_spread (positive : 0 < initial) (pool : Pool) :
    pool.GrowsInto initial pool.spread := by
  obtain ⟨lanes⟩ := pool
  cases lanes with
  | nil => exact .nil
  | cons first rest =>
    exact forall₂_mapIdx _ fun index lane =>
      (lane.growsInto_append positive _).trans (Lane.growsInto_swap initial _)

/-- Spreading in place.  The read buffer of the first lane is taken out, and one without storage is
left in its place, while all lanes append their shares of it to what they have written.  Then it is
put back, and all lanes swap their buffers. -/
def spreadInPlace (pool : Pool) : Pool :=
  match pool.lanes with
  | [] => pool
  | first :: rest =>
    let symbols := first.read.symbols
    let count := pool.lanes.length
    let taken := Lane.mk Buffer.unallocated first.write :: rest
    let written := taken.mapIdx fun index lane =>
      lane.append (share symbols count (symbols.size / count) index)
    let restored := written.modifyHead fun lane => Lane.mk first.read lane.write
    ⟨restored.map Lane.swap⟩

/-- Nothing is left of the buffer without storage. -/
theorem spreadInPlace_eq (pool : Pool) : pool.spreadInPlace = pool.spread := by
  obtain ⟨lanes⟩ := pool
  cases lanes with
  | nil => rfl
  | cons first rest =>
    simp only [spreadInPlace, spread, List.mapIdx_cons, List.modifyHead_cons, List.map_cons]
    congr 2
    apply List.ext_getElem (by simp)
    intro index _ _
    simp

end Pool

end Lindenmayer
