import Lindenmayer.Random.Source

/-!
# Weighted samplers

A sampler draws entries in proportion to their weights.  Entries whose weight is not a positive
finite number are left out when it is made.  What is left decides its form: nothing, a single
entry that needs no draw, running totals, or a table in which each entry is repeated according to
its share.
-/

namespace Lindenmayer

/-- A prepared draw over entries, which are positions in a list of alternatives.  They are not cut
to a number of bits, so nothing here depends on how long the list is. -/
inductive Sampler where
  /-- Nothing to draw. -/
  | nothing
  /-- One entry, chosen without a draw. -/
  | single (entry : Nat)
  /-- Entries with the running totals of their weights. -/
  | cumulative (entries : Array Nat) (totals : Array Float)
  /-- Entries repeated by share, one of which is picked uniformly. -/
  | table (entries : Array Nat)

namespace Sampler

/-- The size of a table before the shares of its entries are rounded to whole places. -/
def tableResolution : Nat := 1024

/-! ### Making samplers -/

/-- Whether an entry of this weight can be drawn. -/
def isUsable (weight : Float) : Bool := weight.isFinite && 0 < weight

/-- The sum of the weights of a pool, added up in order. -/
def totalWeight (pool : List (Nat × Float)) : Float :=
  pool.foldl (fun total entry => total + entry.2) 0

/-- The largest weight of a pool of positive weights. -/
def largestWeight (pool : List (Nat × Float)) : Float :=
  pool.foldl (fun largest entry => if largest < entry.2 then entry.2 else largest) 0

/-- Divides all weights by the largest one when their sum overflows. -/
def rescale (pool : List (Nat × Float)) : List (Nat × Float) :=
  if (totalWeight pool).isFinite then
    pool
  else
    let largest := largestWeight pool
    pool.map fun (entry, weight) => (entry, weight / largest)

/-- The running totals of weights: each is the one before it, or 0, plus the next weight. -/
def runningTotals (weights : List Float) : Array Float :=
  weights.foldl (fun totals weight => totals.push (totals.back?.getD 0 + weight)) #[]

/-- The sampler with the running totals of a pool. -/
def ofTotals (pool : List (Nat × Float)) : Sampler :=
  cumulative (pool.map Prod.fst).toArray (runningTotals (pool.map Prod.snd))

/-- The whole number nearest to a number that is not negative; halves go up. -/
def roundHalfUp (x : Float) : Nat :=
  let whole := x.toUInt64
  if x - whole.toFloat < 0.5 then whole.toNat else whole.toNat + 1

/-- How many places of a table an entry takes. -/
def copies (total weight : Float) : Nat :=
  roundHalfUp (weight / total * Float.ofNat tableResolution)

/-- The places of the table of a pool, entry after entry. -/
def tableEntries (pool : List (Nat × Float)) : List Nat :=
  let total := totalWeight pool
  pool.flatMap fun (entry, weight) => List.replicate (copies total weight) entry

/-- The table of a pool, or its running totals when every share rounds to no place at all. -/
def ofShares (pool : List (Nat × Float)) : Sampler :=
  match tableEntries pool with
  | [] => ofTotals pool
  | entries => table entries.toArray

/-- Makes the sampler of a pool of entries with weights, with a table if one is wanted. -/
def ofPool (pool : List (Nat × Float)) (tabulate : Bool) : Sampler :=
  match rescale (pool.filter fun entry => isUsable entry.2) with
  | [] => nothing
  | [(entry, _)] => single entry
  | pool => if tabulate then ofShares pool else ofTotals pool

/-! ### Drawing -/

/-- The number that stands for the whole pool: the sum of the weights, 1 for a single entry, and
the size of a table. -/
def total : Sampler → Float
  | nothing => 0
  | single _ => 1
  | cumulative _ totals => totals.back?.getD 0
  | table entries => Float.ofNat entries.size

/-- Halves the `size` places from `base` on until one is left, keeping the upper half when its
first place satisfies `test`, and returns the place after the last one that satisfies it. -/
def bisect (test : Nat → Bool) (base size : Nat) : Nat :=
  if 1 < size then
    let middle := base + size / 2
    bisect test (if test middle then middle else base) (size - size / 2)
  else if test base then
    base + 1
  else
    base
termination_by size

/-- The position of the first element that fails `test`, or the size if there is none, provided
that the elements that satisfy it come first. -/
def firstFailing {α : Type} (test : α → Bool) (xs : Array α) : Nat :=
  if xs.isEmpty then 0 else bisect (fun i => xs[i]?.any test) 0 xs.size

/-- The entry whose running total is the first one above `draw`, or the last entry. -/
def entryAbove (entries : Array Nat) (totals : Array Float) (draw : Float) : Option Nat :=
  entries[min (firstFailing (fun total => total ≤ draw) totals) (entries.size - 1)]?

/-- Draws an entry.  Where there is no choice, no word is drawn. -/
def sample {G : Type} [WordSource G] (sampler : Sampler) (source : G) : Option Nat × G :=
  match sampler with
  | nothing => (none, source)
  | single entry => (some entry, source)
  | cumulative entries totals =>
    match totals.back? with
    | none => (none, source)
    | some total =>
      let (unit, source) := WordSource.unitDraw source
      (entryAbove entries totals (unit * total), source)
  | table entries =>
    if entries.isEmpty then
      (none, source)
    else
      let (place, source) := WordSource.below entries.size source
      (entries[place]?, source)

end Sampler

end Lindenmayer
