import Mathlib.Tactic.SplitIfs
import Lindenmayer.Proofs.Growth.Lanes

/-!
# Histories of a run

The operations on a run, what a caller can see of it, and the states that a new run can get into by
a finite sequence of operations.  All of these states are sound: there are as many lanes and as many
random sources as the settings ask for, and nothing is half written.

Fresh seeds come from outside: a sequence of them is handed to a history, one for each operation.
-/

namespace Lindenmayer

namespace Settings

/-- The settings with another initial capacity. -/
def withCapacity (settings : Settings) (capacity : Nat) : Settings :=
  { settings with initialCapacity := capacity }

theorem check_eq_ok_iff {settings : Settings} :
    settings.check = .ok () ↔
      settings.lanes ≠ 0 ∧ settings.initialCapacity ≠ 0 ∧
        settings.primingSteps ≤ settings.parallelThreshold := by
  unfold check fault?
  split_ifs with noLanes noCapacity past
  · simp [noLanes]
  · simp [noCapacity]
  · simp [Nat.not_le.mpr past]
  · simp [noLanes, noCapacity, Nat.not_lt.mp past]

theorem check_withCapacity {settings : Settings} (valid : settings.check = .ok ()) {capacity : Nat}
    (positive : 0 < capacity) : (settings.withCapacity capacity).check = .ok () := by
  obtain ⟨lanes, -, priming⟩ := check_eq_ok_iff.mp valid
  exact check_eq_ok_iff.mpr ⟨lanes, Nat.pos_iff_ne_zero.mp positive, priming⟩

end Settings

namespace Growth

/-! ### Operations -/

/-- What can be done to a run. -/
inductive Operation where
  | step
  | grow (count : Nat)
  | growTo (count : Nat)
  | restart
  /-- Goes on with a new run of the same system. -/
  | fork
  deriving DecidableEq

/-- Performs an operation with a fresh seed at hand; some operations return the generation that
they arrive at. -/
def perform (growth : Growth) (fresh : UInt64) : Operation → Growth × Option (List Symbol)
  | .step => (growth.step, none)
  | .grow count => (growth.grow count, some (growth.grow count).word)
  | .growTo count => (growth.growTo count fresh, some (growth.growTo count fresh).word)
  | .restart => (growth.restart fresh, none)
  | .fork => (growth.fork fresh, none)

/-- The run after a history. -/
def run : (Nat → UInt64) → List Operation → Growth → Growth
  | _, [], growth => growth
  | fresh, operation :: rest, growth =>
    run (fun index => fresh (index + 1)) rest (growth.perform (fresh 0) operation).1

/-- What a caller can see of a run. -/
structure Observation where
  laneWord? : Nat → Option (List Symbol)
  word : List Symbol
  size : Nat
  steps : Nat
  seed : UInt64

/-- Looks at a run. -/
def observe (growth : Growth) : Observation :=
  ⟨growth.laneWord?, growth.word, growth.size, growth.steps, growth.seed⟩

/-- What a caller sees in the course of a history: what each operation returns, and the run after
it. -/
def trace : (Nat → UInt64) → List Operation → Growth → List (Option (List Symbol) × Observation)
  | _, [], _ => []
  | fresh, operation :: rest, growth =>
    let (grown, returned) := growth.perform (fresh 0) operation
    (returned, grown.observe) :: trace (fun index => fresh (index + 1)) rest grown

/-- The states of the runs of a system with given settings: a new run and what histories make of
it. -/
def Reachable (system : LSystem) (settings : Settings) (growth : Growth) : Prop :=
  ∃ first new fresh history,
    ofSystem system settings first = .ok new ∧ growth = run fresh history new

/-- A grammar whose generations depend on the draws, on what stands before a symbol, and on a
counter. -/
def branching : Grammar :=
  Grammar.ofRules
    [⟨⟨"A"⟩, [⟨1, none, [⟨"A"⟩, ⟨"B"⟩]⟩, ⟨1, none, [⟨"B"⟩, ⟨"A"⟩, ⟨"A"⟩]⟩], by simp⟩,
      ⟨⟨"B"⟩, [⟨2, some ⟨"A"⟩, [⟨"S2"⟩, ⟨"B"⟩]⟩], by simp⟩,
      ⟨⟨"S1"⟩, [⟨1, none, [⟨"x"⟩]⟩], by simp⟩]

theorem exists_compile_branching :
    ∃ system, LSystem.compile ⟨"A"⟩ branching false = .ok system := by
  have accepted : (LSystem.compile ⟨"A"⟩ branching false).isOk = true := by decide +kernel
  cases compiled : LSystem.compile ⟨"A"⟩ branching false with
  | error error => rw [compiled] at accepted; cases accepted
  | ok system => exact ⟨system, rfl⟩

/-- Three lanes, with two steps before the generation is spread over them. -/
def threeLanes : Settings := ⟨3, 4, 3, 2, false, some 7⟩

theorem reachable_threeLanes (system : LSystem) (fresh : Nat → UInt64) (history : List Operation) :
    Reachable system threeLanes (run fresh history (start system threeLanes 0)) :=
  ⟨0, start system threeLanes 0, fresh, history, rfl, rfl⟩

/-! ### Sound states -/

/-- What holds of a run between two operations. -/
structure Sound (growth : Growth) : Prop where
  valid : growth.settings.check = .ok ()
  lanes_length : growth.pool.lanes.length = growth.settings.lanes
  sources_length : growth.sources.length = growth.settings.lanes
  settled : ∀ lane ∈ growth.pool.lanes, lane.Settled

section
variable {growth : Growth}

theorem Sound.lanes_ne_zero (sound : growth.Sound) : growth.settings.lanes ≠ 0 :=
  (Settings.check_eq_ok_iff.mp sound.valid).1

theorem Sound.priming_le (sound : growth.Sound) :
    growth.settings.primingSteps ≤ growth.settings.parallelThreshold :=
  (Settings.check_eq_ok_iff.mp sound.valid).2.2

/-- There is a first lane. -/
theorem Sound.exists_lanes (sound : growth.Sound) :
    ∃ first rest, growth.pool.lanes = first :: rest := by
  have positive := sound.lanes_ne_zero
  rw [← sound.lanes_length] at positive
  exact List.exists_cons_of_ne_nil fun empty => positive (congrArg List.length empty)

@[simp] theorem length_seededSources (seed : UInt64) (lanes : Nat) :
    (seededSources seed lanes).length = lanes := by simp [seededSources]

@[simp] theorem length_lanes_reset (pool : Pool) (start : Symbol) :
    (pool.reset start).lanes.length = pool.lanes.length := by
  unfold Pool.reset
  split <;> simp [*]

theorem settled_lanes_reset (pool : Pool) (start : Symbol) :
    ∀ lane ∈ (pool.reset start).lanes, lane.Settled := by
  intro lane member
  unfold Pool.reset at member
  split at member
  next empty => rw [empty] at member; cases member
  next first rest _ =>
    rcases List.mem_cons.mp member with rfl | cleared
    · exact Lane.settled_reset first start
    · obtain ⟨before, -, rfl⟩ := List.mem_map.mp cleared
      exact Lane.settled_clear before

theorem sound_restart (valid : growth.settings.check = .ok ())
    (lanes : growth.pool.lanes.length = growth.settings.lanes) (fresh : UInt64) :
    (growth.restart fresh).Sound where
  valid := valid
  lanes_length := (length_lanes_reset _ _).trans lanes
  sources_length := (length_seededSources _ _).trans lanes
  settled := settled_lanes_reset _ _

theorem sound_start (system : LSystem) {settings : Settings} (valid : settings.check = .ok ())
    (fresh : UInt64) : (start system settings fresh).Sound := by
  have positive := (Settings.check_eq_ok_iff.mp valid).1
  apply sound_restart valid
  simp only [Pool.ofLanes, List.length_replicate]
  omega

theorem lanes_stepLanes (growth : Growth) (count : Nat) :
    (growth.stepLanes count).pool.lanes = (growth.pool.lanes.zip growth.sources).map fun entry =>
      (entry.1.stepN growth.system count entry.2).1 := by
  simp only [stepLanes, ← List.map_uncurry_zip_eq_zipWith, List.map_map]
  rfl

theorem sources_stepLanes (growth : Growth) (count : Nat) :
    (growth.stepLanes count).sources = (growth.pool.lanes.zip growth.sources).map fun entry =>
      (entry.1.stepN growth.system count entry.2).2 := by
  simp only [stepLanes, ← List.map_uncurry_zip_eq_zipWith, List.map_map]
  rfl

theorem Sound.stepLanes (sound : growth.Sound) (count : Nat) : (growth.stepLanes count).Sound where
  valid := sound.valid
  lanes_length := by
    simp [Growth.stepLanes, sound.lanes_length, sound.sources_length]
  sources_length := by
    simp [Growth.stepLanes, sound.lanes_length, sound.sources_length]
  settled := by
    intro lane member
    rw [lanes_stepLanes] at member
    obtain ⟨⟨before, source⟩, paired, rfl⟩ := List.mem_map.mp member
    exact ((sound.settled before (List.of_mem_zip paired).1).stepN_eq _ count source).1

theorem stepLanes_eq (growth : Growth) (count : Nat) :
    growth.stepLanes count =
      { growth with
        pool := ⟨(growth.pool.lanes.zip growth.sources).map fun entry =>
          (entry.1.stepN growth.system count entry.2).1⟩
        sources := (growth.pool.lanes.zip growth.sources).map fun entry =>
          (entry.1.stepN growth.system count entry.2).2
        steps := growth.steps + count } := by
  rw [← lanes_stepLanes, ← sources_stepLanes]
  rfl

theorem Sound.stepLanes_zero (sound : growth.Sound) : growth.stepLanes 0 = growth := by
  have lengths := sound.lanes_length.trans sound.sources_length.symm
  have lanes : ((growth.pool.lanes.zip growth.sources).map fun entry =>
      (entry.1.stepN growth.system 0 entry.2).1) = growth.pool.lanes :=
    List.map_fst_zip (Nat.le_of_eq lengths)
  have sources : ((growth.pool.lanes.zip growth.sources).map fun entry =>
      (entry.1.stepN growth.system 0 entry.2).2) = growth.sources :=
    List.map_snd_zip (Nat.le_of_eq lengths.symm)
  rw [stepLanes_eq, lanes, sources]
  rfl

/-- Every lane can rest after the first steps until the others have taken theirs. -/
theorem stepLanes_add (growth : Growth) (first second : Nat) :
    growth.stepLanes (first + second) = (growth.stepLanes first).stepLanes second := by
  simp only [stepLanes_eq, List.zip_map', List.map_map, Lane.stepN_add, Nat.add_assoc]
  rfl

theorem Sound.grow_eq (sound : growth.Sound) (count : Nat) :
    growth.grow count = growth.stepLanes count := by
  unfold Growth.grow
  split
  next none => rw [none, sound.stepLanes_zero]
  next => rfl

/-- Steps taken by all lanes one after another come to the same as steps taken lane by lane. -/
theorem Sound.stepTimes_eq (sound : growth.Sound) (count : Nat) :
    growth.stepTimes count = growth.stepLanes count := by
  induction count generalizing growth with
  | zero => exact sound.stepLanes_zero.symm
  | succ count ih =>
    calc growth.stepTimes (count + 1)
        = (growth.stepLanes 1).stepLanes count := ih (sound.stepLanes 1)
      _ = growth.stepLanes (count + 1) := by rw [← stepLanes_add, Nat.add_comm]

theorem Sound.grow (sound : growth.Sound) (count : Nat) : (growth.grow count).Sound := by
  rw [sound.grow_eq]
  exact sound.stepLanes count

theorem Sound.stepTimes (sound : growth.Sound) (count : Nat) :
    (growth.stepTimes count).Sound := by
  rw [sound.stepTimes_eq]
  exact sound.stepLanes count

theorem Sound.spread (sound : growth.Sound) : growth.spread.Sound := by
  obtain ⟨first, rest, lanes⟩ := sound.exists_lanes
  have spread := Pool.lanes_spread lanes
  refine ⟨sound.valid, ?_, sound.sources_length, ?_⟩
  · rw [Growth.spread, spread, List.length_mapIdx]
    exact sound.lanes_length
  · intro lane member
    rw [Growth.spread, spread] at member
    obtain ⟨index, bound, rfl⟩ := List.mem_mapIdx.mp member
    exact Lane.settled_swap _

theorem Sound.growTo (sound : growth.Sound) (count : Nat) (fresh : UInt64) :
    (growth.growTo count fresh).Sound := by
  have restarted := sound_restart sound.valid sound.lanes_length fresh
  unfold Growth.growTo
  dsimp only
  split
  · exact restarted.stepTimes count
  · exact (restarted.stepTimes _).spread.grow _

end

/-! ### What every history keeps -/

@[simp] theorem system_grow (growth : Growth) (count : Nat) :
    (growth.grow count).system = growth.system := by
  unfold grow
  split <;> rfl

@[simp] theorem settings_grow (growth : Growth) (count : Nat) :
    (growth.grow count).settings = growth.settings := by
  unfold grow
  split <;> rfl

@[simp] theorem system_stepTimes (growth : Growth) (count : Nat) :
    (growth.stepTimes count).system = growth.system := by
  induction count generalizing growth with
  | zero => rfl
  | succ count ih => exact ih growth.step

@[simp] theorem settings_stepTimes (growth : Growth) (count : Nat) :
    (growth.stepTimes count).settings = growth.settings := by
  induction count generalizing growth with
  | zero => rfl
  | succ count ih => exact ih growth.step

@[simp] theorem system_spread (growth : Growth) : growth.spread.system = growth.system := rfl

@[simp] theorem settings_spread (growth : Growth) : growth.spread.settings = growth.settings := rfl

@[simp] theorem system_restart (growth : Growth) (fresh : UInt64) :
    (growth.restart fresh).system = growth.system := rfl

@[simp] theorem settings_restart (growth : Growth) (fresh : UInt64) :
    (growth.restart fresh).settings = growth.settings := rfl

@[simp] theorem system_growTo (growth : Growth) (count : Nat) (fresh : UInt64) :
    (growth.growTo count fresh).system = growth.system := by
  unfold growTo
  dsimp only
  split <;> simp

@[simp] theorem settings_growTo (growth : Growth) (count : Nat) (fresh : UInt64) :
    (growth.growTo count fresh).settings = growth.settings := by
  unfold growTo
  dsimp only
  split <;> simp

theorem system_perform (growth : Growth) (fresh : UInt64) (operation : Operation) :
    (growth.perform fresh operation).1.system = growth.system := by
  cases operation with
  | step | restart | fork => rfl
  | grow count => exact system_grow growth count
  | growTo count => exact system_growTo growth count fresh

theorem settings_perform (growth : Growth) (fresh : UInt64) (operation : Operation) :
    (growth.perform fresh operation).1.settings = growth.settings := by
  cases operation with
  | step | restart | fork => rfl
  | grow count => exact settings_grow growth count
  | growTo count => exact settings_growTo growth count fresh

/-- Every operation leads from a sound state to a sound one. -/
theorem Sound.perform {growth : Growth} (sound : growth.Sound) (fresh : UInt64)
    (operation : Operation) : (growth.perform fresh operation).1.Sound := by
  cases operation with
  | step => exact sound.stepLanes 1
  | grow count => exact sound.grow count
  | growTo count => exact sound.growTo count fresh
  | restart => exact sound_restart sound.valid sound.lanes_length fresh
  | fork => exact sound_start growth.system sound.valid fresh

/-- What every operation keeps, every history keeps. -/
theorem run_induction {motive : Growth → Prop}
    (perform : ∀ growth fresh operation,
      motive growth → motive (growth.perform fresh operation).1)
    (fresh : Nat → UInt64) (history : List Operation) {growth : Growth} (holds : motive growth) :
    motive (run fresh history growth) := by
  induction history generalizing fresh growth with
  | nil => exact holds
  | cons operation rest ih => exact ih _ (perform growth (fresh 0) operation holds)

theorem ofSystem_eq_ok_iff {system : LSystem} {settings : Settings} {fresh : UInt64}
    {new : Growth} :
    ofSystem system settings fresh = .ok new ↔
      settings.check = .ok () ∧ new = start system settings fresh := by
  unfold ofSystem
  cases settings.check with
  | error error => simp [Except.map]
  | ok => simp [Except.map, eq_comm]

/-- What holds of new runs and is kept by every operation holds of every reachable state. -/
theorem Reachable.induction {system : LSystem} {settings : Settings} {motive : Growth → Prop}
    {growth : Growth} (reached : Reachable system settings growth)
    (new : ∀ fresh, settings.check = .ok () → motive (start system settings fresh))
    (perform : ∀ growth fresh operation,
      motive growth → motive (growth.perform fresh operation).1) :
    motive growth := by
  obtain ⟨first, begun, fresh, history, started, rfl⟩ := reached
  obtain ⟨valid, rfl⟩ := ofSystem_eq_ok_iff.mp started
  exact run_induction perform fresh history (new first valid)

theorem Reachable.system_eq {system : LSystem} {settings : Settings} {growth : Growth}
    (reached : Reachable system settings growth) : growth.system = system :=
  reached.induction (motive := fun growth => growth.system = system) (fun _ _ => rfl)
    fun growth fresh operation kept => (system_perform growth fresh operation).trans kept

theorem Reachable.settings_eq {system : LSystem} {settings : Settings} {growth : Growth}
    (reached : Reachable system settings growth) : growth.settings = settings :=
  reached.induction (motive := fun growth => growth.settings = settings) (fun _ _ => rfl)
    fun growth fresh operation kept => (settings_perform growth fresh operation).trans kept

theorem Reachable.sound {system : LSystem} {settings : Settings} {growth : Growth}
    (reached : Reachable system settings growth) : growth.Sound :=
  reached.induction (fun fresh valid => sound_start system valid fresh)
    fun _ fresh operation sound => sound.perform fresh operation

end Growth

end Lindenmayer
