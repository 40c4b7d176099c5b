import Lindenmayer.Proofs.Growth.Derivations
import Lindenmayer.Proofs.Growth.Storage

/-!
# What lanes are made of

Every operation restores the representation of a run: as many lanes and random sources as the
settings ask for, nothing half written, and buffers that are large enough, of a capacity that is the
initial one doubled a number of times.  Storage that a lane has set aside is never given back, and
until the generation is spread, the lanes behind the first are empty.
-/

namespace Lindenmayer.Growth

variable {growth : Growth}

/-! ### Storage -/

section

variable {initial : Nat} (positive : 0 < initial)
include positive

theorem Sound.growsInto_stepLanes (sound : growth.Sound) (count : Nat) :
    growth.pool.GrowsInto initial (growth.stepLanes count).pool := by
  have paired : (growth.pool.lanes.zip growth.sources).map Prod.fst = growth.pool.lanes :=
    List.map_fst_zip (Nat.le_of_eq (sound.lanes_length.trans sound.sources_length.symm))
  rw [Pool.GrowsInto, lanes_stepLanes]
  conv => arg 2; rw [← paired]
  rw [List.forall₂_map_left_iff, List.forall₂_map_right_iff]
  exact List.forall₂_same.mpr fun entry _ =>
    entry.1.growsInto_stepN positive growth.system count entry.2

theorem Sound.growsInto_growTo (sound : growth.Sound) (count : Nat) (fresh : UInt64) :
    growth.pool.GrowsInto initial (growth.growTo count fresh).pool := by
  have restarted := sound_restart sound.valid sound.lanes_length fresh
  have back : growth.pool.GrowsInto initial (growth.restart fresh).pool :=
    growth.pool.growsInto_reset positive growth.system.start
  have stepped : ∀ steps, growth.pool.GrowsInto initial
      ((growth.restart fresh).stepTimes steps).pool := by
    intro steps
    rw [restarted.stepTimes_eq]
    exact back.trans (restarted.growsInto_stepLanes positive steps)
  by_cases below : count < growth.settings.parallelThreshold
  · rw [growTo_of_lt below]
    exact stepped count
  · rw [growTo_of_not_lt below]
    have spread := (restarted.stepTimes (min growth.settings.primingSteps count)).spread
    rw [spread.grow_eq]
    exact ((stepped _).trans (Pool.growsInto_spread positive _)).trans
      (spread.growsInto_stepLanes positive _)

/-- Every operation on a run leaves each lane with what the lane may grow into.  Only forking begins
with new lanes. -/
theorem Sound.growsInto_perform (sound : growth.Sound) (fresh : UInt64) {operation : Operation}
    (stays : operation ≠ .fork) :
    growth.pool.GrowsInto initial (growth.perform fresh operation).1.pool := by
  cases operation with
  | step => exact sound.growsInto_stepLanes positive 1
  | grow count =>
    show growth.pool.GrowsInto initial (growth.grow count).pool
    rw [sound.grow_eq]
    exact sound.growsInto_stepLanes positive count
  | growTo count => exact sound.growsInto_growTo positive count fresh
  | restart => exact growth.pool.growsInto_reset positive growth.system.start
  | fork => exact absurd rfl stays

end

theorem sized_start {settings : Settings} (positive : 0 < settings.initialCapacity)
    (system : LSystem) (fresh : UInt64) :
    (start system settings fresh).pool.Sized settings.initialCapacity :=
  (Pool.growsInto_reset positive _ system.start).sized (Pool.sized_ofLanes positive settings.lanes)

/-- All buffers of a reachable state are sized. -/
theorem Reachable.sized {system : LSystem} {settings : Settings}
    (reached : Reachable system settings growth) :
    growth.pool.Sized settings.initialCapacity := by
  have invariant : growth.IsRunOf system settings ∧
      growth.pool.Sized settings.initialCapacity := by
    refine reached.induction (motive := fun growth => growth.IsRunOf system settings ∧
      growth.pool.Sized settings.initialCapacity) ?new ?perform
    case new =>
      intro fresh valid
      have positive := Nat.pos_of_ne_zero (Settings.check_eq_ok_iff.mp valid).2.1
      exact ⟨isRunOf_start system valid fresh, sized_start positive system fresh⟩
    case perform =>
      intro growth fresh operation ⟨isRun, sized⟩
      refine ⟨isRun.perform fresh operation, ?_⟩
      have positive : 0 < settings.initialCapacity := by
        rw [← isRun.settings_eq]
        exact Nat.pos_of_ne_zero (Settings.check_eq_ok_iff.mp isRun.sound.valid).2.1
      by_cases forked : operation = .fork
      · rw [forked, ← isRun.settings_eq]
        rw [← isRun.settings_eq] at positive
        exact sized_start positive growth.system fresh
      · exact (isRun.sound.growsInto_perform positive fresh forked).sized sized
  exact invariant.2

/-! ### Idle lanes -/

/-- Whether the generation has been spread since the last restart, once an operation is
performed. -/
def Operation.spreadAfter (threshold : Nat) (spread : Bool) : Operation → Bool
  | .step | .grow _ => spread
  | .growTo count => decide (threshold ≤ count)
  | .restart | .fork => false

/-- Whether the generation has been spread since the last restart at the end of a history. -/
def spreadSince (threshold : Nat) (history : List Operation) : Bool :=
  history.foldl (Operation.spreadAfter threshold) false

section

variable {system : LSystem} {settings : Settings}

theorem firstOnly_perform {outline : Outline} {spread : Bool}
    (idle : spread = false → outline.FirstOnly) (fresh : UInt64) (operation : Operation)
    (unspread : operation.spreadAfter settings.parallelThreshold spread = false) :
    (outline.perform system settings fresh operation).FirstOnly := by
  cases operation with
  | step => exact (idle unspread).advance system 1
  | grow count => exact (idle unspread).advance system count
  | growTo count =>
    have below : count < settings.parallelThreshold :=
      Nat.not_le.mp (of_decide_eq_false unspread)
    rw [Outline.perform, Outline.growTo_of_lt below]
    exact (Outline.firstOnly_initial system settings.lanes _).advance system count
  | restart | fork => exact Outline.firstOnly_initial system settings.lanes _

/-- Until the generation is spread, all lanes but the first are empty. -/
theorem IsRunOf.firstOnly_run (isRun : growth.IsRunOf system settings) {spread : Bool}
    (idle : spread = false → growth.outline.FirstOnly) (fresh : Nat → UInt64)
    (history : List Operation)
    (unspread : history.foldl (Operation.spreadAfter settings.parallelThreshold) spread = false) :
    (run fresh history growth).outline.FirstOnly := by
  induction history generalizing growth fresh spread with
  | nil => exact idle unspread
  | cons operation rest ih =>
    refine ih (isRun.perform (fresh 0) operation) ?_ _ unspread
    intro still
    rw [isRun.outline_perform]
    exact firstOnly_perform idle (fresh 0) operation still

end

theorem Sound.word_of_firstOnly (sound : growth.Sound) (firstOnly : growth.outline.FirstOnly) :
    ∀ lane ∈ growth.pool.lanes.tail, lane.word = [] := by
  have words := congrArg List.tail sound.map_fst_parts
  rw [← List.map_tail, ← List.map_tail] at words
  intro lane member
  have held : lane.word ∈ growth.outline.parts.tail.map Prod.fst := by
    rw [words]
    exact List.mem_map_of_mem member
  obtain ⟨part, listed, same⟩ := List.mem_map.mp held
  rw [← same, firstOnly part listed]

/-! ### Spreading -/

/-- The state whose generation is spread on the way to a generation from the threshold on. -/
def primed (growth : Growth) (count : Nat) (fresh : UInt64) : Growth :=
  (growth.restart fresh).stepTimes (min growth.settings.primingSteps count)

theorem Sound.primed (sound : growth.Sound) (count : Nat) (fresh : UInt64) :
    (growth.primed count fresh).Sound :=
  (sound_restart sound.valid sound.lanes_length fresh).stepTimes _

theorem Sound.firstOnly_primed (sound : growth.Sound) (count : Nat) (fresh : UInt64) :
    (growth.primed count fresh).outline.FirstOnly := by
  have restarted := sound_restart sound.valid sound.lanes_length fresh
  rw [Growth.primed, restarted.outline_stepTimes, sound.outline_restart]
  exact (Outline.firstOnly_initial _ _ _).advance _ _

theorem Sound.word_spread (sound : growth.Sound) (firstOnly : growth.outline.FirstOnly) :
    growth.spread.word = growth.word := by
  have nonempty : growth.outline.parts ≠ [] := by
    rw [← List.length_pos_iff, sound.length_parts]
    exact Nat.pos_of_ne_zero sound.lanes_ne_zero
  rw [sound.spread.word_eq_outline, sound.outline_spread, firstOnly.word_spread nonempty,
    sound.word_eq_outline]

/-- What holds of the lanes of a run after any history.  There are as many lanes and as many random
sources as the settings ask for.  Every write buffer is empty, and every buffer is large enough and
has the initial capacity, doubled a number of times.  No operation on the run lowers the smaller or
the larger capacity of a lane.  All lanes but the first are empty until the generation is spread,
also whenever it is about to be, so that spreading loses nothing; done in place, it leaves the same
pool, although the first lane is without its read buffer for a while. -/
theorem lane_representation {system : LSystem} {settings : Settings} {first : UInt64}
    {new growth : Growth} (started : ofSystem system settings first = .ok new)
    (fresh : Nat → UInt64) (history : List Operation) (arrived : growth = run fresh history new) :
    growth.pool.lanes.length = settings.lanes ∧ growth.sources.length = settings.lanes ∧
    (∀ lane ∈ growth.pool.lanes, lane.write.toList = [] ∧
      ∀ buffer ∈ [lane.read, lane.write], buffer.size ≤ buffer.capacity ∧
        ∃ k, buffer.capacity = settings.initialCapacity * 2 ^ k) ∧
    (∀ operation supplied, operation ≠ .fork →
      List.Forall₂ (fun lane after => Lane.smallerCapacity lane ≤ Lane.smallerCapacity after ∧
          Lane.largerCapacity lane ≤ Lane.largerCapacity after)
        growth.pool.lanes (growth.perform supplied operation).1.pool.lanes) ∧
    (spreadSince settings.parallelThreshold history = false →
      ∀ lane ∈ growth.pool.lanes.tail, lane.word = []) ∧
    ∀ count supplied, settings.parallelThreshold ≤ count →
      growth.growTo count supplied = (growth.primed count supplied).spread.grow
        (count - min settings.primingSteps count) ∧
      (∀ lane ∈ (growth.primed count supplied).pool.lanes, lane.write.toList = []) ∧
      (∀ lane ∈ (growth.primed count supplied).pool.lanes.tail, lane.word = []) ∧
      (growth.primed count supplied).spread.word = (growth.primed count supplied).word ∧
      (growth.primed count supplied).pool.spreadInPlace =
        (growth.primed count supplied).pool.spread := by
  have reached : Reachable system settings growth := ⟨first, new, fresh, history, started, arrived⟩
  have sound := reached.sound
  have same := reached.settings_eq
  obtain ⟨valid, rfl⟩ := ofSystem_eq_ok_iff.mp started
  have positive := Nat.pos_of_ne_zero (Settings.check_eq_ok_iff.mp valid).2.1
  refine ⟨by rw [sound.lanes_length, same], by rw [sound.sources_length, same], ?buffers, ?storage,
    ?idle, ?spread⟩
  case buffers =>
    intro lane member
    obtain ⟨read, write⟩ := reached.sized lane member
    refine ⟨sound.settled lane member, ?_⟩
    intro buffer either
    rcases List.mem_pair.mp either with rfl | rfl
    · exact ⟨read.size_le, read.doublings⟩
    · exact ⟨write.size_le, write.doublings⟩
  case storage =>
    intro operation supplied stays
    exact (sound.growsInto_perform positive supplied stays).imp fun _ _ grows =>
      ⟨grows.smaller_le, grows.larger_le⟩
  case idle =>
    intro unspread
    refine sound.word_of_firstOnly ?_
    rw [arrived]
    refine (isRunOf_start system valid first).firstOnly_run (fun _ => ?_) fresh history unspread
    rw [outline_start system valid]
    exact Outline.firstOnly_initial system settings.lanes _
  case spread =>
    intro count supplied reachedThreshold
    have primed := sound.primed count supplied
    have firstOnly := sound.firstOnly_primed count supplied
    rw [← same] at reachedThreshold ⊢
    exact ⟨growTo_of_not_lt (Nat.not_lt.mpr reachedThreshold), primed.settled,
      primed.word_of_firstOnly firstOnly, primed.word_spread firstOnly, Pool.spreadInPlace_eq _⟩

/-- Three lanes after a growth that was spread, a restart and a step.  The first one still has the
storage that it needed for the growth. -/
theorem lane_representation_branching :
    ∃ system growth, LSystem.compile ⟨"A"⟩ branching false = .ok system ∧
      ofSystem system threeLanes 0 = .ok (start system threeLanes 0) ∧
      growth = run (fun _ => 0) [.growTo 6, .restart, .step] (start system threeLanes 0) ∧
      (growth.pool.lanes.map fun lane =>
        (lane.read.size, lane.read.capacity, lane.write.capacity)) =
          [(2, 8, 16), (0, 4, 4), (0, 4, 4)] ∧
      growth.pool.lanes.length = 3 ∧ growth.sources.length = 3 ∧
      Operation.growTo 5 ≠ .fork ∧
      List.Forall₂ (fun lane after => Lane.smallerCapacity lane ≤ Lane.smallerCapacity after ∧
          Lane.largerCapacity lane ≤ Lane.largerCapacity after)
        growth.pool.lanes (growth.growTo 5 0).pool.lanes ∧
      spreadSince 3 [.growTo 6, .restart, .step] = false ∧
      (∀ lane ∈ growth.pool.lanes.tail, lane.word = []) ∧
      3 ≤ 5 ∧ (growth.primed 5 0).spread.word = (growth.primed 5 0).word := by
  have evaluated : (LSystem.compile ⟨"A"⟩ branching false).toOption.map (fun system =>
      (run (fun _ => 0) [.growTo 6, .restart, .step] (start system threeLanes 0)).pool.lanes.map
        fun lane => (lane.read.size, lane.read.capacity, lane.write.capacity)) =
      some [(2, 8, 16), (0, 4, 4), (0, 4, 4)] := by decide +kernel
  obtain ⟨system, compiled, capacities⟩ := exists_ok_of_toOption_map evaluated
  have started : ofSystem system threeLanes 0 = .ok (start system threeLanes 0) := rfl
  obtain ⟨lanes, sources, -, storage, idle, spread⟩ :=
    lane_representation started (fun _ => 0) [.growTo 6, .restart, .step] rfl
  have stays : Operation.growTo 5 ≠ .fork := by decide
  have threshold : 3 ≤ 5 := by decide
  exact ⟨system, _, compiled, started, rfl, capacities, lanes, sources, stays,
    storage (.growTo 5) 0 stays, rfl, idle rfl, threshold, (spread 5 0 threshold).2.2.2.1⟩

end Lindenmayer.Growth
