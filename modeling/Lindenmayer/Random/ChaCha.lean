import Lindenmayer.Random.Source

/-!
# The ChaCha random source

The ChaCha stream with twelve rounds, a 64-bit block counter that begins at 0 and a stream number
of 0.  Each block is used as eight 64-bit words, the lower half of each first.  A 64-bit seed is
spread over the 256-bit key by a linear congruential generator with permuted output.
-/

namespace Lindenmayer

/-- The state of the source: the key, the number of the next block, and the words left over from
the last one. -/
structure ChaCha where
  key : Vector UInt32 8
  counter : UInt64
  pending : List UInt64
  deriving DecidableEq

namespace ChaCha

/-- The working state of the block function. -/
abbrev Block := Vector UInt32 16

/-- Rotation to the left; `count` lies between 1 and 31. -/
def rotateLeft (x : UInt32) (count : UInt32) : UInt32 :=
  (x <<< count) ||| (x >>> (32 - count))

/-- Adds one word to another, and mixes the sum into a third by exclusive or and rotation. -/
def mix (block : Block) (target source mixed : Fin 16) (count : UInt32) : Block :=
  let sum := block[target] + block[source]
  let block := block.set target.val sum target.isLt
  block.set mixed.val (rotateLeft (block[mixed] ^^^ sum) count) mixed.isLt

/-- The quarter round on four words of the state. -/
def quarterRound (block : Block) (a b c d : Fin 16) : Block :=
  let block := mix block a b d 16
  let block := mix block c d b 12
  let block := mix block a b d 8
  mix block c d b 7

/-- A round on the columns, then one on the diagonals. -/
def doubleRound (block : Block) : Block :=
  let block := quarterRound block 0 4 8 12
  let block := quarterRound block 1 5 9 13
  let block := quarterRound block 2 6 10 14
  let block := quarterRound block 3 7 11 15
  let block := quarterRound block 0 5 10 15
  let block := quarterRound block 1 6 11 12
  let block := quarterRound block 2 7 8 13
  quarterRound block 3 4 9 14

/-- The block before its rounds: the constants, the key, the counter, and the stream number. -/
def initial (key : Vector UInt32 8) (counter : UInt64) : Block :=
  #v[0x61707865, 0x3320646e, 0x79622d32, 0x6b206574,
    key[0], key[1], key[2], key[3], key[4], key[5], key[6], key[7],
    counter.toUInt32, (counter >>> 32).toUInt32, 0, 0]

/-- The block with a given number: six double rounds, added to what they started from. -/
def block (key : Vector UInt32 8) (counter : UInt64) : Block :=
  let start := initial key counter
  Vector.zipWith (· + ·) (doubleRound (doubleRound (doubleRound (doubleRound (doubleRound
    (doubleRound start)))))) start

/-- Joins neighbouring 32-bit words, the lower half first. -/
def pair : List UInt32 → List UInt64
  | low :: high :: rest => (low.toUInt64 ||| (high.toUInt64 <<< 32)) :: pair rest
  | _ => []

/-- The 64-bit words of a block, in order. -/
def blockWords (key : Vector UInt32 8) (counter : UInt64) : List UInt64 :=
  pair (block key counter).toList

instance : WordSource ChaCha where
  next source :=
    match source.pending with
    | word :: pending => (word, { source with pending := pending })
    | [] =>
      match blockWords source.key source.counter with
      | word :: pending => (word, ⟨source.key, source.counter + 1, pending⟩)
      | [] => (0, source)

/-- One step of the generator that spreads a seed. -/
def seedStep (state : UInt64) : UInt64 := state * 6364136223846793005 + 11634580027462260723

/-- The key word that a state of the generator stands for. -/
def seedWord (state : UInt64) : UInt32 :=
  let folded := (((state >>> 18) ^^^ state) >>> 27).toUInt32
  let count := (state >>> 59).toUInt32
  (folded >>> count) ||| (folded <<< ((32 - count) % 32))

/-- The state after `count + 1` steps from a seed. -/
def seedState (seed : UInt64) : Nat → UInt64
  | 0 => seedStep seed
  | count + 1 => seedStep (seedState seed count)

/-- The key made of a seed. -/
def keyOfSeed (seed : UInt64) : Vector UInt32 8 :=
  Vector.ofFn fun i => seedWord (seedState seed i)

/-- The source with a given seed. -/
def ofSeed (seed : UInt64) : ChaCha := ⟨keyOfSeed seed, 0, []⟩

end ChaCha

end Lindenmayer
