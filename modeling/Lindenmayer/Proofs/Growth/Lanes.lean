import Lindenmayer.Growth
import Lindenmayer.Proofs.LSystem.Derivation

/-!
# What a lane holds

Between two operations the write buffer of every lane is empty.  Then a step turns the word of a
lane into its successor, and neither the capacities of the buffers nor which of them is the read
buffer has a say in it.
-/

namespace Lindenmayer

namespace Lane

variable {G : Type} [WordSource G]

/-- Nothing is half written. -/
def Settled (lane : Lane) : Prop := lane.write.toList = []

theorem settled_swap (lane : Lane) : lane.swap.Settled := rfl

theorem settled_clear (lane : Lane) : lane.clear.Settled := rfl

theorem settled_reset (lane : Lane) (start : Symbol) : (lane.reset start).Settled := rfl

/-- A settled lane that writes down a word and swaps its buffers holds just that word. -/
theorem Settled.word_swap_append {lane : Lane} (settled : lane.Settled) (word : List Symbol) :
    (lane.append word).swap.word = word := by
  have written : lane.write.toList = [] := settled
  simp [append, written]

theorem settled_step (system : LSystem) (lane : Lane) (source : G) :
    (lane.step system source).1.Settled := settled_swap _

/-- A step is a pass over the word. -/
theorem Settled.step_eq {lane : Lane} (settled : lane.Settled) (system : LSystem) (source : G) :
    (lane.step system source).1.word = (system.pass lane.word source).1 ∧
      (lane.step system source).2 = (system.pass lane.word source).2 := by
  have written : lane.write.toList = [] := settled
  obtain ⟨contents, sources⟩ := system.derive_eq lane.word lane.write source
  rw [written, List.nil_append] at contents
  exact ⟨contents, sources⟩

theorem stepN_succ (system : LSystem) (count : Nat) (lane : Lane) (source : G) :
    lane.stepN system (count + 1) source =
      (lane.step system source).1.stepN system count (lane.step system source).2 := rfl

theorem stepN_add (system : LSystem) (first second : Nat) (lane : Lane) (source : G) :
    lane.stepN system (first + second) source =
      (lane.stepN system first source).1.stepN system second
        (lane.stepN system first source).2 := by
  induction first generalizing lane source with
  | zero => rw [Nat.zero_add]; rfl
  | succ first ih => rw [Nat.succ_add, stepN_succ, stepN_succ, ih]

/-- Several steps are as many passes, and they leave the lane settled. -/
theorem Settled.stepN_eq {lane : Lane} (settled : lane.Settled) (system : LSystem) (count : Nat)
    (source : G) :
    (lane.stepN system count source).1.Settled ∧
      (lane.stepN system count source).1.word = (system.passes count lane.word source).1 ∧
      (lane.stepN system count source).2 = (system.passes count lane.word source).2 := by
  induction count generalizing lane source with
  | zero => exact ⟨settled, rfl, rfl⟩
  | succ count ih =>
    obtain ⟨word, sources⟩ := settled.step_eq system source
    have rest := ih (settled_step system lane source) (lane.step system source).2
    rw [word, sources] at rest
    rw [stepN_succ, LSystem.passes_succ, sources]
    exact rest

end Lane

namespace Pool

/-- What one of several lanes takes over of a word that is spread over them. -/
def shareOf (word : List Symbol) (count index : Nat) : List Symbol :=
  let chunk := word.length / count
  if index + 1 = count then word.drop (index * chunk)
  else word.extract (index * chunk) ((index + 1) * chunk)

theorem share_eq (symbols : Array Symbol) (count index : Nat) :
    share symbols count (symbols.size / count) index = shareOf symbols.toList count index := by
  simp only [share, shareOf, Array.length_toList, Nat.succ_mul]
  split
  · rw [Array.toList_extract, List.extract_eq_take_drop]
    exact List.take_of_length_le (by simp)
  · rw [Array.toList_extract]

theorem shareOf_one (word : List Symbol) : shareOf word 1 0 = word := by simp [shareOf]

/-- Spreading gives every lane its share of the word of the first. -/
theorem lanes_spread {pool : Pool} {first : Lane} {rest : List Lane}
    (lanes : pool.lanes = first :: rest) :
    pool.spread.lanes = pool.lanes.mapIdx fun index lane =>
      (lane.append (shareOf first.word pool.lanes.length index)).swap := by
  have spelled : pool = ⟨first :: rest⟩ := by rw [← lanes]
  subst spelled
  simp only [spread, share_eq]
  rfl

end Pool

end Lindenmayer
