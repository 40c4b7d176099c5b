import Lindenmayer.Proofs.Growth.Generations
import Lindenmayer.Proofs.LSystem.Derivability

/-!
# Generations are derived

However a run spreads its generation over lanes, the generation that it arrives at can be derived
from the start symbol, in as many passes as the run counts steps since its last restart.  Steps
derive the word of each lane apart, and spreading cuts a word without losing or moving a symbol.
-/

namespace Lindenmayer

namespace Pool

/-- The shares of a word put together are the word. -/
theorem flatMap_shareOf (word : List Symbol) {count : Nat} (positive : 0 < count) :
    (List.range count).flatMap (shareOf word count) = word := by
  obtain ⟨last, rfl⟩ := Nat.exists_eq_add_one.mpr positive
  -- All lanes but the last take chunks of one size, which together are an initial part of the word.
  have chunks : ∀ lanes, lanes ≤ last → (List.range lanes).flatMap (shareOf word (last + 1)) =
      word.take (lanes * (word.length / (last + 1))) := by
    intro lanes
    induction lanes with
    | zero => simp
    | succ lanes ih =>
      intro bound
      have inner : lanes + 1 ≠ last + 1 := by omega
      rw [List.range_succ, List.flatMap_append, ih (by omega), List.flatMap_singleton, shareOf,
        if_neg inner, List.extract_eq_take_drop, Nat.succ_mul, Nat.add_sub_cancel_left,
        ← List.take_add]
  rw [List.range_succ, List.flatMap_append, chunks last (Nat.le_refl last),
    List.flatMap_singleton, shareOf, if_pos rfl, List.take_append_drop]

end Pool

namespace Outline

variable {system : LSystem}

/-- The generation: the words of the lanes, one after another. -/
def word (outline : Outline) : List Symbol := outline.parts.flatMap Prod.fst

/-- The generation can be derived from the start symbol in the number of steps taken. -/
def Derivable (system : LSystem) (outline : Outline) : Prop :=
  system.DerivesIn [system.start] outline.steps outline.word

theorem advance_add (outline : Outline) (first second : Nat) :
    outline.advance system (first + second) =
      (outline.advance system first).advance system second := by
  simp only [advance, List.map_map, Nat.add_assoc, LSystem.passes_add]
  rfl

theorem word_initial {lanes : Nat} (positive : 0 < lanes) (seed : UInt64) :
    (initial system lanes seed).word = [system.start] := by
  obtain ⟨others, rfl⟩ := Nat.exists_eq_add_one.mpr positive
  simp [word, initial, List.range_succ_eq_map, List.flatMap_map]

theorem derivable_initial {lanes : Nat} (positive : 0 < lanes) (seed : UInt64) :
    (initial system lanes seed).Derivable system := by
  rw [Derivable, word_initial positive]
  exact .refl

/-- All lanes but the first one are empty. -/
def FirstOnly (outline : Outline) : Prop := ∀ part ∈ outline.parts.tail, part.1 = []

theorem firstOnly_initial (system : LSystem) (lanes : Nat) (seed : UInt64) :
    (initial system lanes seed).FirstOnly := by
  cases lanes with
  | zero => simp [FirstOnly, initial]
  | succ others => simp [FirstOnly, initial, List.range_succ_eq_map]

theorem FirstOnly.advance {outline : Outline} (firstOnly : outline.FirstOnly) (system : LSystem)
    (count : Nat) : (outline.advance system count).FirstOnly := by
  intro part member
  rw [Outline.advance, ← List.map_tail] at member
  obtain ⟨before, idle, rfl⟩ := List.mem_map.mp member
  rw [firstOnly before idle, LSystem.passes_nil]

/-- What the first lane holds alone, the lanes hold together after it is spread. -/
theorem FirstOnly.word_spread {outline : Outline} (firstOnly : outline.FirstOnly)
    (nonempty : outline.parts ≠ []) : outline.spread.word = outline.word := by
  obtain ⟨first, rest, parts⟩ := List.exists_cons_of_ne_nil nonempty
  have idle : rest.flatMap Prod.fst = [] := by
    rw [List.flatMap_eq_nil_iff]
    intro part member
    exact firstOnly part (by rw [parts]; exact member)
  have shares : outline.spread.words =
      (List.range (rest.length + 1)).map (Pool.shareOf first.1 (rest.length + 1)) := by
    rw [words_spread, words, parts]
    apply List.ext_getElem (by simp)
    intro lane _ _
    rw [List.getElem_mapIdx, List.getElem_map, List.getElem_range]
    simp
  calc outline.spread.word
      = outline.spread.words.flatten := List.flatMap_def
    _ = first.1 := by
      rw [shares, ← List.flatMap_def, Pool.flatMap_shareOf _ (Nat.succ_pos _)]
    _ = outline.word := by rw [word, parts, List.flatMap_cons, idle, List.append_nil]

/-- After the primed generation is spread, the lanes hold it together. -/
theorem word_spread_advance_initial {lanes : Nat} (positive : 0 < lanes) (seed : UInt64)
    (count : Nat) :
    ((initial system lanes seed).advance system count).spread.word =
      (system.passes count [system.start] (Growth.laneSource seed 0)).1 := by
  have primed := (firstOnly_initial system lanes seed).advance system count
  obtain ⟨others, rfl⟩ := Nat.exists_eq_add_one.mpr positive
  rw [primed.word_spread (by simp [advance, initial])]
  simp [word, advance, initial, List.range_succ_eq_map, List.flatMap_map, Growth.ofSeed_seedForLane]

section

variable (prepared : system.Prepared)
include prepared

/-- In one step every lane derives its part. -/
theorem derives_advance (outline : Outline) :
    system.Derives outline.word (outline.advance system 1).word := by
  simp only [word, advance]
  induction outline.parts with
  | nil => exact .nil
  | cons part parts ih =>
    rw [List.map_cons, List.flatMap_cons, List.flatMap_cons]
    exact (prepared.derives_pass part.1 part.2).append ih

theorem Derivable.advance {outline : Outline} (derivable : outline.Derivable system)
    (count : Nat) : (outline.advance system count).Derivable system := by
  induction count with
  | zero =>
    have unchanged : outline.advance system 0 = outline := by
      simp [Outline.advance]
    rw [unchanged]
    exact derivable
  | succ count ih =>
    rw [advance_add]
    exact .step ih (derives_advance prepared _)

theorem derivable_growTo {settings : Settings} (positive : 0 < settings.lanes) (count : Nat)
    (seed : UInt64) : (growTo system settings count seed).Derivable system := by
  have new : (initial system settings.lanes seed).Derivable system :=
    derivable_initial positive seed
  by_cases below : count < settings.parallelThreshold
  · rw [growTo_of_lt below]
    exact new.advance prepared count
  · rw [growTo_of_le (Nat.not_lt.mp below)]
    apply Derivable.advance prepared
    have steps : ((initial system settings.lanes seed).advance system
        settings.primingSteps).spread.steps = settings.primingSteps := Nat.zero_add _
    rw [Derivable, word_spread_advance_initial positive, steps]
    exact prepared.derivesIn_passes _ _ _

/-- Every operation arrives at a generation that can be derived. -/
theorem Derivable.perform {outline : Outline} (derivable : outline.Derivable system)
    {settings : Settings} (positive : 0 < settings.lanes) (fresh : UInt64)
    (operation : Growth.Operation) :
    (outline.perform system settings fresh operation).Derivable system := by
  cases operation with
  | step => exact derivable.advance prepared 1
  | grow count => exact derivable.advance prepared count
  | growTo count => exact derivable_growTo prepared positive count _
  | restart | fork => exact derivable_initial positive _

end

end Outline

namespace Growth

variable {growth : Growth}

theorem Sound.word_eq_outline (sound : growth.Sound) : growth.word = growth.outline.word :=
  congrArg Observation.word sound.observe_eq

/-- The generation of a reachable state is one of those that can be derived from the start symbol
in as many passes as the run has taken steps. -/
theorem Reachable.derivesIn {system : LSystem} (prepared : system.Prepared) {settings : Settings}
    (reached : Reachable system settings growth) :
    system.DerivesIn [system.start] growth.steps growth.word := by
  have positive : 0 < settings.lanes := by
    rw [← reached.settings_eq]
    exact Nat.pos_of_ne_zero reached.sound.lanes_ne_zero
  have derivable : growth.outline.Derivable system :=
    reached.outline_induction (motive := Outline.Derivable system)
      (fun _ => Outline.derivable_initial positive _)
      fun _ fresh operation kept => kept.perform prepared positive fresh operation
  rw [reached.sound.word_eq_outline]
  exact derivable

end Growth

end Lindenmayer
