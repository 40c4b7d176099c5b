import Lindenmayer.Symbol

/-!
# Buffers

A buffer is a word that grows at its end, together with the capacity set aside for it.  The
capacity doubles until an append fits, and clearing the word keeps it.
-/

namespace Lindenmayer

/-- A word under construction and the capacity set aside for it. -/
structure Buffer where
  symbols : Array Symbol
  capacity : Nat
  deriving DecidableEq

namespace Buffer

/-- A buffer for which nothing has been set aside yet. -/
def unallocated : Buffer := ⟨#[], 0⟩

/-- An empty buffer of the given capacity, or of capacity 1 if that is 0.  Memory has no limit here:
capacities that are too large for an array, at which a program that sets them aside stops, are not
told apart from others. -/
def ofCapacity (capacity : Nat) : Buffer := ⟨#[], max capacity 1⟩

/-- The word held by a buffer. -/
def toList (buffer : Buffer) : List Symbol := buffer.symbols.toList

/-- The length of the word. -/
def size (buffer : Buffer) : Nat := buffer.symbols.size

/-- Whether the word is empty. -/
def isEmpty (buffer : Buffer) : Bool := buffer.size == 0

/-- Doubles a positive capacity until it is at least `required`. -/
def doubled (required capacity : Nat) (positive : 0 < capacity) : Nat :=
  if capacity < required then
    doubled required (2 * capacity) (Nat.mul_pos Nat.two_pos positive)
  else
    capacity
termination_by required - capacity

theorem le_doubled (required capacity : Nat) (positive : 0 < capacity) :
    required ≤ doubled required capacity positive := by
  fun_induction doubled required capacity positive with
  | case1 _ _ _ ih => exact ih
  | case2 => omega

theorem capacity_le_doubled (required capacity : Nat) (positive : 0 < capacity) :
    capacity ≤ doubled required capacity positive := by
  fun_induction doubled required capacity positive with
  | case1 => omega
  | case2 => omega

/-- The capacity once a word of length `required` fits; a capacity of 0 counts as 1 when it has to
grow. -/
def grown (required capacity : Nat) : Nat :=
  if required ≤ capacity then
    capacity
  else
    doubled required (max capacity 1) (Nat.le_max_right capacity 1)

theorem le_grown (required capacity : Nat) : required ≤ grown required capacity := by
  unfold grown
  split
  · assumption
  · exact le_doubled required (max capacity 1) _

theorem capacity_le_grown (required capacity : Nat) : capacity ≤ grown required capacity := by
  unfold grown
  split
  · exact Nat.le_refl capacity
  · exact Nat.le_trans (Nat.le_max_left capacity 1) (capacity_le_doubled required _ _)

/-- Appends a symbol. -/
def push (buffer : Buffer) (symbol : Symbol) : Buffer :=
  let capacity := grown (buffer.size + 1) buffer.capacity
  ⟨buffer.symbols.push symbol, capacity⟩

/-- Appends a word. -/
def append (buffer : Buffer) (word : List Symbol) : Buffer :=
  let capacity := grown (buffer.size + word.length) buffer.capacity
  ⟨buffer.symbols.appendList word, capacity⟩

/-- Empties the word and keeps the capacity. -/
def clear (buffer : Buffer) : Buffer := { buffer with symbols := #[] }

@[simp] theorem toList_unallocated : unallocated.toList = [] := rfl

@[simp] theorem toList_ofCapacity (capacity : Nat) : (ofCapacity capacity).toList = [] := rfl

@[simp] theorem toList_push (buffer : Buffer) (symbol : Symbol) :
    (buffer.push symbol).toList = buffer.toList ++ [symbol] := by
  simp [toList, push]

@[simp] theorem toList_append (buffer : Buffer) (word : List Symbol) :
    (buffer.append word).toList = buffer.toList ++ word := by
  simp [toList, append]

@[simp] theorem toList_clear (buffer : Buffer) : buffer.clear.toList = [] := rfl

@[simp] theorem length_toList (buffer : Buffer) : buffer.toList.length = buffer.size := by
  simp [toList, size]

end Buffer

end Lindenmayer
