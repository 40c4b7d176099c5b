import Lindenmayer.Proofs.Growth.Derivations
import Lindenmayer.Proofs.Growth.Storage

/-!
# Spreading a word over the lanes of a pool

Spreading cuts the word of the first lane into slices, one for each lane, that follow upon each
other from its beginning to its end.  No symbol is lost, repeated or moved, whether there are more
symbols than lanes or fewer, and no slice reaches beyond the word.
-/

namespace Lindenmayer.Pool

/-! ### Slices -/

/-- The part of a word between two positions, if they are in order and within the word. -/
def slice? (symbols : Array Symbol) (start stop : Nat) : Option (List Symbol) :=
  if start ≤ stop ∧ stop ≤ symbols.size then some (symbols.extract start stop).toList else none

/-- Writes to each lane, from that of the given index on, its slice of a word of which each of
`count` lanes takes `chunk` symbols.  It fails at the first slice that is out of range. -/
def writeSlices (symbols : Array Symbol) (count chunk : Nat) : Nat → List Lane → Option (List Lane)
  | _, [] => some []
  | index, lane :: lanes => do
    let stop := if index + 1 = count then symbols.size else index * chunk + chunk
    let slice ← slice? symbols (index * chunk) stop
    let others ← writeSlices symbols count chunk (index + 1) lanes
    return lane.append slice :: others

/-- Spreading in place with all accesses checked: there has to be a first lane, and every slice has
to be in range. -/
def spreadChecked (pool : Pool) : Option Pool :=
  match pool.lanes with
  | [] => none
  | first :: rest => do
    let symbols := first.read.symbols
    let count := pool.lanes.length
    let taken := Lane.mk Buffer.unallocated first.write :: rest
    let written ← writeSlices symbols count (symbols.size / count) 0 taken
    let restored := written.modifyHead fun lane => Lane.mk first.read lane.write
    return ⟨restored.map Lane.swap⟩

section

variable {symbols : Array Symbol} {count chunk : Nat} (enough : count * chunk ≤ symbols.size)
include enough

/-- The slices of all lanes lie within the word. -/
theorem slice?_eq_share {index : Nat} (inside : index < count) :
    slice? symbols (index * chunk)
        (if index + 1 = count then symbols.size else index * chunk + chunk) =
      some (share symbols count chunk index) := by
  have within : index * chunk + chunk ≤ symbols.size :=
    calc index * chunk + chunk = (index + 1) * chunk := (Nat.succ_mul index chunk).symm
      _ ≤ count * chunk := Nat.mul_le_mul_right chunk inside
      _ ≤ symbols.size := enough
  rw [slice?, share, if_pos]
  split <;> omega

theorem writeSlices_eq (index : Nat) (lanes : List Lane) (within : index + lanes.length ≤ count) :
    writeSlices symbols count chunk index lanes =
      some (lanes.mapIdx fun offset lane =>
        lane.append (share symbols count chunk (index + offset))) := by
  induction lanes generalizing index with
  | nil => rfl
  | cons lane lanes ih =>
    rw [List.length_cons] at within
    have slice := slice?_eq_share enough (show index < count by omega)
    have others := ih (index + 1) (by omega)
    simp only [writeSlices, slice, others, List.mapIdx_cons, Nat.add_zero, Nat.add_assoc,
      Nat.add_comm 1]
    rfl

end

/-- Where there is a lane, the checks never fail. -/
theorem spreadChecked_eq {pool : Pool} (nonempty : pool.lanes ≠ []) :
    pool.spreadChecked = some pool.spread := by
  rw [← spreadInPlace_eq]
  obtain ⟨lanes⟩ := pool
  cases lanes with
  | nil => exact absurd rfl nonempty
  | cons first rest =>
    have written := writeSlices_eq (Nat.mul_div_le first.read.symbols.size (rest.length + 1)) 0
      (Lane.mk Buffer.unallocated first.write :: rest) (Nat.le_of_eq (Nat.zero_add _))
    simp only [Nat.zero_add] at written
    simp only [spreadChecked, spreadInPlace, List.length_cons, written]
    rfl

/-! ### Lanes -/

/-- Each lane holds what it had written and then its share. -/
theorem getElem?_lanes_spread {pool : Pool} {first : Lane} {rest : List Lane}
    (lanes : pool.lanes = first :: rest) {index : Nat} {lane : Lane}
    (found : pool.lanes[index]? = some lane) :
    ∃ after, pool.spread.lanes[index]? = some after ∧ after.write.toList = [] ∧
      after.word = lane.write.toList ++ shareOf first.word pool.lanes.length index := by
  refine ⟨(lane.append (shareOf first.word pool.lanes.length index)).swap, ?_, rfl, ?_⟩
  · rw [lanes_spread lanes, List.getElem?_mapIdx, found]
    rfl
  · rw [Lane.word_swap, Lane.append, Buffer.toList_append]

theorem map_word_spread {pool : Pool} {first : Lane} {rest : List Lane}
    (lanes : pool.lanes = first :: rest) (settled : ∀ lane ∈ pool.lanes, lane.Settled) :
    pool.spread.lanes.map Lane.word =
      (List.range pool.lanes.length).map (shareOf first.word pool.lanes.length) := by
  rw [lanes_spread lanes]
  apply List.ext_getElem (by simp)
  intro index inside _
  rw [List.length_map, List.length_mapIdx] at inside
  rw [List.getElem_map, List.getElem_mapIdx, List.getElem_map, List.getElem_range,
    (settled _ (List.getElem_mem inside)).word_swap_append]

/-- What spreading leaves in a pool with at least one lane.  No access on the way is out of range.
Each lane holds what it had written, followed by its share of the word of the first lane, and has
nothing written: with `chunk` the length of the word divided by the number of lanes, the share of
the lane at an index begins at `index * chunk` and is of that length, except that the last lane
takes everything to the end.  If nothing had been written, the pool holds the word of the first
lane. -/
theorem spread_partition {pool : Pool} {first : Lane} {rest : List Lane}
    (lanes : pool.lanes = first :: rest) :
    pool.spreadChecked = some pool.spread ∧
    pool.spread.lanes.length = pool.lanes.length ∧
    (∀ index lane, pool.lanes[index]? = some lane →
      ∃ after, pool.spread.lanes[index]? = some after ∧ after.write.toList = [] ∧
        after.word = lane.write.toList ++ shareOf first.word pool.lanes.length index) ∧
    ((∀ lane ∈ pool.lanes, lane.write.toList = []) →
      pool.spread.lanes.map Lane.word =
        (List.range pool.lanes.length).map (shareOf first.word pool.lanes.length) ∧
      pool.spread.word = first.word ∧ pool.spread.size = first.word.length) := by
  have nonempty : pool.lanes ≠ [] := by
    rw [lanes]
    exact List.cons_ne_nil first rest
  refine ⟨spreadChecked_eq nonempty, by rw [lanes_spread lanes, List.length_mapIdx],
    fun index lane found => getElem?_lanes_spread lanes found, fun settled => ?_⟩
  have words := map_word_spread lanes settled
  have whole : pool.spread.word = first.word :=
    calc pool.spread.word
        = (pool.spread.lanes.map Lane.word).flatten := List.flatMap_def
      _ = (List.range pool.lanes.length).flatMap (shareOf first.word pool.lanes.length) := by
        rw [words, ← List.flatMap_def]
      _ = first.word := flatMap_shareOf first.word (List.length_pos_iff.mpr nonempty)
  exact ⟨words, whole, by rw [← length_word, whole]⟩

/-- Three lanes, of which the first one holds eight symbols. -/
def eight : Pool :=
  (ofLanes 3 4).modifyLane 0 fun lane =>
    (lane.append ((List.range 8).map fun index => .plain index.toUInt16)).swap

/-- The same lanes, the second one of which has written a symbol. -/
def nine : Pool := eight.modifyLane 1 fun lane => lane.push (.plain 9)

theorem spread_partition_eight :
    (∃ first rest, eight.lanes = first :: rest ∧ eight.spreadChecked = some eight.spread ∧
      (∀ lane ∈ eight.lanes, lane.write.toList = []) ∧
      eight.spread.lanes.map Lane.word =
        [[.plain 0, .plain 1], [.plain 2, .plain 3], [.plain 4, .plain 5, .plain 6, .plain 7]] ∧
      eight.spread.word = first.word ∧ eight.spread.size = 8) ∧
    ∃ first rest lane after, nine.lanes = first :: rest ∧ nine.lanes[1]? = some lane ∧
      nine.spread.lanes[1]? = some after ∧ after.word = [.plain 9, .plain 2, .plain 3] := by
  have settled : ∀ lane ∈ eight.lanes, lane.write.toList = [] := by decide +kernel
  obtain ⟨checked, -, -, unwritten⟩ := spread_partition (show eight.lanes = _ :: _ from rfl)
  obtain ⟨words, whole, size⟩ := unwritten settled
  obtain ⟨-, -, behind, -⟩ := spread_partition (show nine.lanes = _ :: _ from rfl)
  obtain ⟨after, found, -, word⟩ := behind 1 _ rfl
  exact ⟨⟨_, _, rfl, checked, settled, words, whole, size⟩, _, _, _, after, rfl, rfl, found, word⟩

end Lindenmayer.Pool
