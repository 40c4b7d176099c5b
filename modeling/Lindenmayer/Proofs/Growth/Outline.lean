import Lindenmayer.Proofs.Growth.Operations

/-!
# Runs in outline

The outline of a run leaves out the buffers: it keeps the word and the random source of every lane,
the seed, and the number of steps.  Every operation on a sound run is an operation on its outline,
and whatever a caller can see of a sound run can be read off its outline.
-/

namespace Lindenmayer

/-- A run without its buffers. -/
@[ext]
structure Outline where
  /-- The word and the random source of each lane. -/
  parts : List (List Symbol × ChaCha)
  seed : UInt64
  steps : Nat

namespace Outline

/-- The start symbol in the first lane, nothing in the others, and a source for each of them. -/
def initial (system : LSystem) (lanes : Nat) (seed : UInt64) : Outline where
  parts := (List.range lanes).map fun lane =>
    (if lane = 0 then [system.start] else [], ChaCha.ofSeed (Growth.seedForLane seed lane))
  seed := seed
  steps := 0

/-- Lets every lane take a number of passes with its own source. -/
def advance (system : LSystem) (count : Nat) (outline : Outline) : Outline :=
  { outline with
    parts := outline.parts.map fun part => system.passes count part.1 part.2
    steps := outline.steps + count }

/-- Spreads the word of the first lane. -/
def spread (outline : Outline) : Outline :=
  let word := outline.parts.head?.elim [] Prod.fst
  { outline with
    parts := outline.parts.mapIdx fun lane part =>
      (Pool.shareOf word outline.parts.length lane, part.2) }

/-- Restarts with a seed and grows to a generation. -/
def growTo (system : LSystem) (settings : Settings) (count : Nat) (seed : UInt64) : Outline :=
  let new := initial system settings.lanes seed
  if count < settings.parallelThreshold then
    new.advance system count
  else
    ((new.advance system settings.primingSteps).spread).advance system
      (count - settings.primingSteps)

/-- What a caller sees of a run with a given outline. -/
def observe (outline : Outline) : Growth.Observation where
  laneWord? lane := outline.parts[lane]?.map Prod.fst
  word := outline.parts.flatMap Prod.fst
  size := (outline.parts.flatMap Prod.fst).length
  steps := outline.steps
  seed := outline.seed

/-- Performs an operation in outline. -/
def perform (system : LSystem) (settings : Settings) (fresh : UInt64) (outline : Outline) :
    Growth.Operation → Outline
  | .step => outline.advance system 1
  | .grow count => outline.advance system count
  | .growTo count => growTo system settings count (settings.seed.getD fresh)
  | .restart | .fork => initial system settings.lanes (settings.seed.getD fresh)

/-- The words of the lanes. -/
def words (outline : Outline) : List (List Symbol) := outline.parts.map Prod.fst

/-- The random sources of the lanes. -/
def sources (outline : Outline) : List ChaCha := outline.parts.map Prod.snd

theorem words_initial (system : LSystem) (lanes : Nat) (seed : UInt64) :
    (initial system lanes seed).words =
      (List.range lanes).map fun lane => if lane = 0 then [system.start] else [] := by
  simp only [words, initial, List.map_map]
  rfl

theorem sources_initial (system : LSystem) (lanes : Nat) (seed : UInt64) :
    (initial system lanes seed).sources = Growth.seededSources seed lanes := by
  simp only [sources, initial, List.map_map]
  rfl

theorem words_spread (outline : Outline) :
    outline.spread.words = outline.words.mapIdx fun lane _ =>
      Pool.shareOf (outline.words.head?.getD []) outline.words.length lane := by
  have first : outline.parts.head?.elim [] Prod.fst = outline.words.head?.getD [] := by
    rw [words, List.head?_map]
    cases outline.parts.head? <;> rfl
  have count : outline.parts.length = outline.words.length := (List.length_map _).symm
  rw [words, spread, first, count]
  apply List.ext_getElem (by simp [words])
  intro lane _ _
  simp

theorem sources_spread (outline : Outline) : outline.spread.sources = outline.sources := by
  apply List.ext_getElem (by simp [sources, spread])
  intro lane _ _
  simp [sources, spread]

/-- An operation on a seeded run depends neither on the fresh seed at hand nor on the initial
capacity. -/
theorem perform_seeded {settings : Settings} {seed : UInt64} (seeded : settings.seed = some seed)
    (system : LSystem) (outline : Outline) (fresh fresh' : UInt64) (capacity : Nat)
    (operation : Growth.Operation) :
    outline.perform system (settings.withCapacity capacity) fresh' operation =
      outline.perform system settings fresh operation := by
  cases operation with
  | step | grow => rfl
  | growTo | restart | fork =>
    simp only [perform, growTo, Settings.withCapacity, seeded, Option.getD_some]

end Outline

namespace Growth

/-- The outline of a run. -/
def outline (growth : Growth) : Outline where
  parts := (growth.pool.lanes.zip growth.sources).map fun entry => (entry.1.word, entry.2)
  seed := growth.seed
  steps := growth.steps

variable {growth : Growth}

theorem Sound.length_parts (sound : growth.Sound) :
    growth.outline.parts.length = growth.settings.lanes := by
  simp [outline, sound.lanes_length, sound.sources_length]

/-- The words of the lanes, read off the outline. -/
theorem Sound.map_fst_parts (sound : growth.Sound) :
    growth.outline.parts.map Prod.fst = growth.pool.lanes.map Lane.word := by
  have enough : growth.pool.lanes.length ≤ growth.sources.length :=
    Nat.le_of_eq (sound.lanes_length.trans sound.sources_length.symm)
  calc growth.outline.parts.map Prod.fst
      = ((growth.pool.lanes.zip growth.sources).map Prod.fst).map Lane.word := by
        simp only [outline, List.map_map]
        rfl
    _ = growth.pool.lanes.map Lane.word := by rw [List.map_fst_zip enough]

theorem Sound.map_snd_parts (sound : growth.Sound) :
    growth.outline.parts.map Prod.snd = growth.sources := by
  have enough : growth.sources.length ≤ growth.pool.lanes.length :=
    Nat.le_of_eq (sound.sources_length.trans sound.lanes_length.symm)
  calc growth.outline.parts.map Prod.snd
      = (growth.pool.lanes.zip growth.sources).map Prod.snd := by
        simp only [outline, List.map_map]
        rfl
    _ = growth.sources := List.map_snd_zip enough

/-- All that a caller can see of a sound run is in its outline. -/
theorem Sound.observe_eq (sound : growth.Sound) : growth.observe = growth.outline.observe := by
  have words := sound.map_fst_parts
  have word : growth.word = growth.outline.parts.flatMap Prod.fst := by
    rw [Growth.word, Pool.word, List.flatMap_def, List.flatMap_def, words]
  have size : growth.size = (growth.outline.parts.flatMap Prod.fst).length := by
    rw [← word, Growth.word, Pool.length_word]
    rfl
  have laneWord : growth.laneWord? = fun lane => growth.outline.parts[lane]?.map Prod.fst := by
    funext lane
    rw [laneWord?, ← List.getElem?_map, ← List.getElem?_map, words]
  rw [observe, laneWord, word, size]
  rfl

/-! ### Operations in outline -/

theorem Sound.outline_stepLanes (sound : growth.Sound) (count : Nat) :
    (growth.stepLanes count).outline = growth.outline.advance growth.system count := by
  have parts : (growth.stepLanes count).outline.parts =
      (growth.outline.advance growth.system count).parts := by
    simp only [outline, Outline.advance, lanes_stepLanes, sources_stepLanes, List.zip_map',
      List.map_map]
    apply List.map_congr_left
    intro entry paired
    obtain ⟨-, word, source⟩ :=
      (sound.settled entry.1 (List.of_mem_zip paired).1).stepN_eq growth.system count entry.2
    exact Prod.ext word source
  exact Outline.ext parts rfl rfl

theorem Sound.outline_grow (sound : growth.Sound) (count : Nat) :
    (growth.grow count).outline = growth.outline.advance growth.system count := by
  rw [sound.grow_eq, sound.outline_stepLanes]

theorem Sound.outline_stepTimes (sound : growth.Sound) (count : Nat) :
    (growth.stepTimes count).outline = growth.outline.advance growth.system count := by
  rw [sound.stepTimes_eq, sound.outline_stepLanes]

theorem Sound.outline_spread (sound : growth.Sound) :
    growth.spread.outline = growth.outline.spread := by
  obtain ⟨first, rest, lanes⟩ := sound.exists_lanes
  have head : growth.outline.parts.head?.elim [] Prod.fst = first.word := by
    have words := sound.map_fst_parts
    rw [lanes] at words
    cases parts : growth.outline.parts with
    | nil => rw [parts] at words; cases words
    | cons part _ => rw [parts] at words; exact (List.cons.inj words).1
  have lengths : growth.outline.parts.length = growth.pool.lanes.length :=
    sound.length_parts.trans sound.lanes_length.symm
  have parts : growth.spread.outline.parts = growth.outline.spread.parts := by
    simp only [Outline.spread, head, lengths]
    simp only [outline, Growth.spread, Pool.lanes_spread lanes]
    apply List.ext_getElem (by simp)
    intro index _ inside
    have bound : index < growth.pool.lanes.length := by
      rw [List.length_mapIdx, List.length_map, List.length_zip] at inside
      exact Nat.lt_of_lt_of_le inside (Nat.min_le_left _ _)
    have settled := sound.settled _ (List.getElem_mem bound)
    simp only [List.getElem_map, List.getElem_zip, List.getElem_mapIdx, settled.word_swap_append]
  exact Outline.ext parts rfl rfl

/-- After a restart nothing is left of what was there before, but for the number of lanes. -/
theorem outline_restart (nonempty : growth.pool.lanes ≠ []) (fresh : UInt64) :
    (growth.restart fresh).outline =
      Outline.initial growth.system growth.pool.lanes.length
        (growth.settings.seed.getD fresh) := by
  obtain ⟨first, rest, lanes⟩ := List.exists_cons_of_ne_nil nonempty
  have parts : (growth.restart fresh).outline.parts =
      (Outline.initial growth.system growth.pool.lanes.length
        (growth.settings.seed.getD fresh)).parts := by
    simp only [outline, restart, Outline.initial, Pool.reset, lanes, seededSources]
    apply List.ext_getElem (by simp)
    intro index _ inside
    cases index with
    | zero => simp
    | succ index => simp
  exact Outline.ext parts rfl rfl

theorem Sound.outline_restart (sound : growth.Sound) (fresh : UInt64) :
    (growth.restart fresh).outline =
      Outline.initial growth.system growth.settings.lanes (growth.settings.seed.getD fresh) := by
  obtain ⟨first, rest, lanes⟩ := sound.exists_lanes
  have nonempty : growth.pool.lanes ≠ [] := by
    rw [lanes]
    exact List.cons_ne_nil first rest
  rw [Growth.outline_restart nonempty, sound.lanes_length]

theorem outline_start (system : LSystem) {settings : Settings} (valid : settings.check = .ok ())
    (fresh : UInt64) :
    (start system settings fresh).outline =
      Outline.initial system settings.lanes (settings.seed.getD fresh) := by
  have positive := (Settings.check_eq_ok_iff.mp valid).1
  have count : max settings.lanes 1 = settings.lanes := by omega
  unfold start
  rw [Growth.outline_restart]
  · simp [Pool.ofLanes, count]
  · simp [Pool.ofLanes]

theorem growTo_of_lt {count : Nat} {fresh : UInt64}
    (below : count < growth.settings.parallelThreshold) :
    growth.growTo count fresh = (growth.restart fresh).stepTimes count := if_pos below

theorem growTo_of_not_lt {count : Nat} {fresh : UInt64}
    (reached : ¬count < growth.settings.parallelThreshold) :
    growth.growTo count fresh =
      (((growth.restart fresh).stepTimes (min growth.settings.primingSteps count)).spread).grow
        (count - min growth.settings.primingSteps count) := if_neg reached

theorem Sound.outline_growTo (sound : growth.Sound) (count : Nat) (fresh : UInt64) :
    (growth.growTo count fresh).outline =
      Outline.growTo growth.system growth.settings count (growth.settings.seed.getD fresh) := by
  have restarted := sound_restart sound.valid sound.lanes_length fresh
  by_cases below : count < growth.settings.parallelThreshold
  · rw [growTo_of_lt below, restarted.outline_stepTimes, sound.outline_restart, system_restart,
      Outline.growTo, if_pos below]
  · -- Settings that are accepted never prime past the threshold.
    have primed : min growth.settings.primingSteps count = growth.settings.primingSteps :=
      Nat.min_eq_left (Nat.le_trans sound.priming_le (Nat.not_lt.mp below))
    rw [growTo_of_not_lt below, primed, (restarted.stepTimes _).spread.outline_grow,
      (restarted.stepTimes _).outline_spread, restarted.outline_stepTimes, sound.outline_restart,
      system_spread, system_stepTimes, system_restart, Outline.growTo, if_neg below]

/-- Every operation on a sound run is one on its outline. -/
theorem Sound.outline_perform (sound : growth.Sound) (fresh : UInt64) (operation : Operation) :
    (growth.perform fresh operation).1.outline =
      growth.outline.perform growth.system growth.settings fresh operation := by
  cases operation with
  | step => exact sound.outline_stepLanes 1
  | grow count => exact sound.outline_grow count
  | growTo count => exact sound.outline_growTo count fresh
  | restart => exact sound.outline_restart fresh
  | fork => exact outline_start growth.system sound.valid fresh

/-- A sound run of a system with given settings. -/
structure IsRunOf (system : LSystem) (settings : Settings) (growth : Growth) : Prop where
  sound : growth.Sound
  system_eq : growth.system = system
  settings_eq : growth.settings = settings

theorem isRunOf_start (system : LSystem) {settings : Settings} (valid : settings.check = .ok ())
    (fresh : UInt64) : (start system settings fresh).IsRunOf system settings :=
  ⟨sound_start system valid fresh, rfl, rfl⟩

section

variable {system : LSystem} {settings : Settings}

theorem IsRunOf.perform (isRun : growth.IsRunOf system settings) (fresh : UInt64)
    (operation : Operation) : (growth.perform fresh operation).1.IsRunOf system settings where
  sound := isRun.sound.perform fresh operation
  system_eq := (system_perform growth fresh operation).trans isRun.system_eq
  settings_eq := (settings_perform growth fresh operation).trans isRun.settings_eq

theorem IsRunOf.outline_perform (isRun : growth.IsRunOf system settings) (fresh : UInt64)
    (operation : Operation) :
    (growth.perform fresh operation).1.outline =
      growth.outline.perform system settings fresh operation := by
  rw [isRun.sound.outline_perform, isRun.system_eq, isRun.settings_eq]

/-- What holds of the outlines of new runs and is kept by every operation in outline holds of the
outline of every reachable state. -/
theorem Reachable.outline_induction {motive : Outline → Prop}
    (reached : Reachable system settings growth)
    (new : ∀ fresh, motive
      (Outline.initial system settings.lanes (settings.seed.getD fresh)))
    (perform : ∀ outline fresh operation,
      motive outline → motive (outline.perform system settings fresh operation)) :
    motive growth.outline := by
  have invariant : growth.IsRunOf system settings ∧ motive growth.outline := by
    refine reached.induction (motive := fun growth =>
      growth.IsRunOf system settings ∧ motive growth.outline) ?begun ?performed
    case begun =>
      intro fresh valid
      refine ⟨isRunOf_start system valid fresh, ?_⟩
      rw [outline_start system valid]
      exact new fresh
    case performed =>
      intro growth fresh operation ⟨isRun, holds⟩
      refine ⟨isRun.perform fresh operation, ?_⟩
      rw [isRun.outline_perform]
      exact perform _ fresh operation holds
  exact invariant.2

end

end Growth

end Lindenmayer
