import Lindenmayer.Buffer

/-!
# Lanes and pools

A lane holds a part of the current generation in its read buffer and collects the part's successor
in its write buffer; swapping the two makes the successor current.  A pool is a row of lanes whose
current words, one after another, are the whole generation.
-/

namespace Lindenmayer

/-- A current word and the buffer that its successor is written to. -/
structure Lane where
  read : Buffer
  write : Buffer
  deriving DecidableEq

namespace Lane

/-- An empty lane whose buffers have the given capacity. -/
def ofCapacity (capacity : Nat) : Lane :=
  ⟨Buffer.ofCapacity capacity, Buffer.ofCapacity capacity⟩

/-- The current word. -/
def word (lane : Lane) : List Symbol := lane.read.toList

/-- Makes the written word current and empties the other buffer for reuse. -/
def swap (lane : Lane) : Lane := ⟨lane.write, lane.read.clear⟩

/-- Empties both buffers. -/
def clear (lane : Lane) : Lane := ⟨lane.read.clear, lane.write.clear⟩

/-- Makes a single symbol the current word. -/
def reset (lane : Lane) (start : Symbol) : Lane :=
  ⟨lane.read.clear.push start, lane.write.clear⟩

/-- Appends a symbol to the written word. -/
def push (lane : Lane) (symbol : Symbol) : Lane := { lane with write := lane.write.push symbol }

/-- Appends a word to the written word. -/
def append (lane : Lane) (word : List Symbol) : Lane :=
  { lane with write := lane.write.append word }

@[simp] theorem word_ofCapacity (capacity : Nat) : (ofCapacity capacity).word = [] := rfl

@[simp] theorem word_swap (lane : Lane) : lane.swap.word = lane.write.toList := rfl

@[simp] theorem word_clear (lane : Lane) : lane.clear.word = [] := rfl

@[simp] theorem word_reset (lane : Lane) (start : Symbol) : (lane.reset start).word = [start] := by
  simp [reset, word]

@[simp] theorem length_word (lane : Lane) : lane.word.length = lane.read.size := by
  simp [word]

/-- How many symbols the current words of some lanes have together. -/
def totalSize (lanes : List Lane) : Nat :=
  lanes.foldr (fun lane total => lane.read.size + total) 0

end Lane

/-- A row of lanes. -/
structure Pool where
  lanes : List Lane
  deriving DecidableEq

namespace Pool

/-- A pool of empty lanes; there is always at least one. -/
def ofLanes (count capacity : Nat) : Pool :=
  ⟨List.replicate (max count 1) (Lane.ofCapacity capacity)⟩

/-- Makes a single symbol the current word of the first lane and empties all other lanes. -/
def reset (pool : Pool) (start : Symbol) : Pool :=
  match pool.lanes with
  | [] => pool
  | first :: rest => ⟨first.reset start :: rest.map Lane.clear⟩

/-- The share of a word of which each lane takes `chunk` symbols: what lies at position
`index * chunk` and on, up to the end for the last of `count` lanes. -/
def share (symbols : Array Symbol) (count chunk index : Nat) : List Symbol :=
  let stop := if index + 1 = count then symbols.size else index * chunk + chunk
  (symbols.extract (index * chunk) stop).toList

/-- Splits the current word of the first lane evenly over all lanes; the last one takes the
remainder.  Each share goes behind what its lane has written, and becomes current with it. -/
def spread (pool : Pool) : Pool :=
  match pool.lanes with
  | [] => pool
  | first :: _ =>
    let symbols := first.read.symbols
    let count := pool.lanes.length
    let chunk := symbols.size / count
    ⟨pool.lanes.mapIdx fun index lane => (lane.append (share symbols count chunk index)).swap⟩

/-- The number of symbols in the current generation. -/
def size (pool : Pool) : Nat := Lane.totalSize pool.lanes

/-- Whether the current generation is empty. -/
def isEmpty (pool : Pool) : Bool := pool.size == 0

/-- The current generation: the current words of the lanes, one after another. -/
def word (pool : Pool) : List Symbol := pool.lanes.flatMap Lane.word

@[simp] theorem length_word (pool : Pool) : pool.word.length = pool.size := by
  unfold word size
  induction pool.lanes with
  | nil => rfl
  | cons lane lanes ih =>
    simp only [List.flatMap_cons, List.length_append, Lane.length_word, ih]
    rfl

/-- Applies a change to one lane, if there is a lane of that index. -/
def modifyLane (pool : Pool) (index : Nat) (change : Lane → Lane) : Pool :=
  ⟨pool.lanes.modify index change⟩

end Pool

end Lindenmayer
