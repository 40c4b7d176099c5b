import Lindenmayer.Proofs.Growth.Outline

/-!
# What growing arrives at

Growing to a generation restarts the run, so that the outcome depends on the settings and the count
alone.  Below the threshold the first lane derives the whole generation and the others stay idle:
passes over an empty word yield nothing and draw nothing.  From the threshold on, each lane derives
its share of the primed generation; with a single lane the share is everything, and the two ways
agree.
-/

namespace Lindenmayer

namespace Growth

variable {growth : Growth}

/-- A lane holds a word and a random source. -/
def Holds (growth : Growth) (lane : Nat) (part : List Symbol × ChaCha) : Prop :=
  growth.laneWord? lane = some part.1 ∧ growth.sources[lane]? = some part.2

/-- The random source of a lane right after the run was seeded. -/
def laneSource (seed : UInt64) (lane : Nat) : ChaCha :=
  ChaCha.ofSeed (UInt64.ofNat ((seed.toNat + lane) % UInt64.size))

theorem ofSeed_seedForLane (seed : UInt64) (lane : Nat) :
    ChaCha.ofSeed (seedForLane seed lane) = laneSource seed lane := by
  unfold laneSource
  congr 1
  apply UInt64.toNat_inj.mp
  simp [seedForLane]

theorem Sound.holds (sound : growth.Sound) {lane : Nat} {part : List Symbol × ChaCha}
    (found : growth.outline.parts[lane]? = some part) : growth.Holds lane part := by
  constructor
  · rw [laneWord?, ← List.getElem?_map, ← sound.map_fst_parts, List.getElem?_map, found]
    rfl
  · rw [← sound.map_snd_parts, List.getElem?_map, found]
    rfl

/-- The generation is made of the words of the lanes, in order. -/
theorem word_eq (growth : Growth) :
    growth.word = (List.range growth.pool.lanes.length).flatMap fun lane =>
      (growth.laneWord? lane).getD [] := by
  unfold word laneWord? Pool.word
  induction growth.pool.lanes with
  | nil => rfl
  | cons lane lanes ih =>
    rw [List.flatMap_cons, ih, List.length_cons, List.range_succ_eq_map, List.flatMap_cons,
      List.flatMap_map]
    rfl

end Growth

namespace Outline

variable {system : LSystem} {settings : Settings} {seed : UInt64} {count lanes lane : Nat}

theorem getElem?_initial (bound : lane < lanes) :
    (initial system lanes seed).parts[lane]? =
      some (if lane = 0 then [system.start] else [], Growth.laneSource seed lane) := by
  simp only [initial, List.getElem?_map, List.getElem?_range bound, Option.map_some,
    Growth.ofSeed_seedForLane]

theorem length_advance_initial :
    ((initial system lanes seed).advance system count).parts.length = lanes := by
  simp [advance, initial]

theorem getElem?_advance_initial_zero (positive : 0 < lanes) :
    ((initial system lanes seed).advance system count).parts[0]? =
      some (system.passes count [system.start] (Growth.laneSource seed 0)) := by
  rw [advance, List.getElem?_map, getElem?_initial positive]
  rfl

/-- An idle lane stays idle, and its source stays as it was seeded. -/
theorem getElem?_advance_initial (bound : lane < lanes) (idle : lane ≠ 0) :
    ((initial system lanes seed).advance system count).parts[lane]? =
      some ([], Growth.laneSource seed lane) := by
  rw [advance, List.getElem?_map, getElem?_initial bound, if_neg idle, Option.map_some,
    LSystem.passes_nil]

/-- The primed generation, spread over the lanes. -/
theorem getElem?_spread_advance_initial (bound : lane < lanes) {word : List Symbol}
    {source : ChaCha}
    (primed : system.passes count [system.start] (Growth.laneSource seed 0) = (word, source)) :
    ((initial system lanes seed).advance system count).spread.parts[lane]? =
      some (Pool.shareOf word lanes lane,
        if lane = 0 then source else Growth.laneSource seed lane) := by
  have first : ((initial system lanes seed).advance system count).parts[0]? =
      some (word, source) := by
    rw [getElem?_advance_initial_zero (Nat.zero_lt_of_lt bound), primed]
  simp only [spread, List.getElem?_mapIdx, List.head?_eq_getElem?, first, length_advance_initial]
  by_cases idle : lane = 0
  · subst idle
    rw [first]
    rfl
  · rw [getElem?_advance_initial bound idle, if_neg idle]
    rfl

theorem growTo_of_lt (below : count < settings.parallelThreshold) :
    growTo system settings count seed =
      (initial system settings.lanes seed).advance system count := if_pos below

theorem growTo_of_le (beyond : settings.parallelThreshold ≤ count) :
    growTo system settings count seed =
      (((initial system settings.lanes seed).advance system settings.primingSteps).spread).advance
        system (count - settings.primingSteps) := if_neg (Nat.not_lt.mpr beyond)

theorem getElem?_growTo_of_le (beyond : settings.parallelThreshold ≤ count)
    (bound : lane < settings.lanes) {word : List Symbol} {source : ChaCha}
    (primed : system.passes settings.primingSteps [system.start] (Growth.laneSource seed 0) =
      (word, source)) :
    (growTo system settings count seed).parts[lane]? =
      some (system.passes (count - settings.primingSteps) (Pool.shareOf word settings.lanes lane)
        (if lane = 0 then source else Growth.laneSource seed lane)) := by
  rw [growTo_of_le beyond, advance, List.getElem?_map,
    getElem?_spread_advance_initial bound primed]
  rfl

theorem steps_growTo (priming : settings.primingSteps ≤ settings.parallelThreshold) :
    (growTo system settings count seed).steps = count := by
  by_cases below : count < settings.parallelThreshold
  · rw [growTo_of_lt below]
    exact Nat.zero_add count
  · rw [growTo_of_le (Nat.not_lt.mp below)]
    show 0 + settings.primingSteps + (count - settings.primingSteps) = count
    omega

/-- With a single lane, growing is nothing but passes over the start symbol. -/
theorem getElem?_growTo_single (single : settings.lanes = 1)
    (priming : settings.primingSteps ≤ settings.parallelThreshold) :
    (growTo system settings count seed).parts[0]? =
      some (system.passes count [system.start] (Growth.laneSource seed 0)) := by
  have positive : 0 < settings.lanes := by omega
  by_cases below : count < settings.parallelThreshold
  · rw [growTo_of_lt below, getElem?_advance_initial_zero positive]
  · have split : settings.primingSteps + (count - settings.primingSteps) = count := by omega
    have passes := system.passes_add settings.primingSteps (count - settings.primingSteps)
      [system.start] (Growth.laneSource seed 0)
    rw [split] at passes
    rw [getElem?_growTo_of_le (Nat.not_lt.mp below) positive rfl, single, Pool.shareOf_one,
      if_pos rfl, passes]

end Outline

namespace Growth

variable {growth : Growth}

theorem Reachable.outline_growTo {system : LSystem} {settings : Settings} {seed : UInt64}
    (reached : Reachable system settings growth) (seeded : settings.seed = some seed)
    (count : Nat) (fresh : UInt64) :
    (growth.growTo count fresh).outline = Outline.growTo system settings count seed := by
  rw [reached.sound.outline_growTo, reached.system_eq, reached.settings_eq, seeded]
  rfl

/-- What growing to a generation arrives at: which word and which random source each lane holds,
the generation that is returned, and the number of steps.  It does not matter in which state the
run was before. -/
theorem growTo_generation {system : LSystem} {settings : Settings} {seed : UInt64}
    (reached : Reachable system settings growth) (seeded : settings.seed = some seed)
    (count : Nat) (fresh : UInt64) :
    (count < settings.parallelThreshold →
      (growth.growTo count fresh).Holds 0
          (system.passes count [system.start] (laneSource seed 0)) ∧
        ∀ lane, 0 < lane → lane < settings.lanes →
          (growth.growTo count fresh).Holds lane ([], laneSource seed lane)) ∧
    (settings.parallelThreshold ≤ count → ∀ word source,
      system.passes settings.primingSteps [system.start] (laneSource seed 0) = (word, source) →
        ∀ lane, lane < settings.lanes →
          (growth.growTo count fresh).Holds lane
            (system.passes (count - settings.primingSteps)
              (Pool.shareOf word settings.lanes lane)
              (if lane = 0 then source else laneSource seed lane))) ∧
    (growth.growTo count fresh).pool.lanes.length = settings.lanes ∧
    (growth.growTo count fresh).word =
      ((List.range settings.lanes).flatMap fun lane =>
        ((growth.growTo count fresh).laneWord? lane).getD []) ∧
    (growth.perform fresh (.growTo count)).2 = some (growth.growTo count fresh).word ∧
    (growth.growTo count fresh).steps = count ∧
    (settings.lanes = 1 →
      (growth.growTo count fresh).word =
        (system.passes count [system.start] (laneSource seed 0)).1) := by
  have sound := reached.sound
  have grown := sound.growTo count fresh
  have outline := reached.outline_growTo seeded count fresh
  have positive : 0 < settings.lanes := by
    have := sound.lanes_ne_zero
    rw [reached.settings_eq] at this
    omega
  have priming : settings.primingSteps ≤ settings.parallelThreshold := by
    have := sound.priming_le
    rwa [reached.settings_eq] at this
  have lanes : (growth.growTo count fresh).pool.lanes.length = settings.lanes := by
    rw [grown.lanes_length, settings_growTo, reached.settings_eq]
  have word := word_eq (growth.growTo count fresh)
  rw [lanes] at word
  refine ⟨fun below => ⟨?first, ?idle⟩, ?shares, lanes, word, rfl, ?steps, ?single⟩
  case first =>
    apply grown.holds
    rw [outline, Outline.growTo_of_lt below, Outline.getElem?_advance_initial_zero positive]
  case idle =>
    intro lane idle bound
    apply grown.holds
    rw [outline, Outline.growTo_of_lt below,
      Outline.getElem?_advance_initial bound (Nat.pos_iff_ne_zero.mp idle)]
  case shares =>
    intro beyond word source primed lane bound
    apply grown.holds
    rw [outline, Outline.getElem?_growTo_of_le beyond bound primed]
  case steps =>
    have steps := congrArg Outline.steps outline
    rw [Outline.steps_growTo priming] at steps
    exact steps
  case single =>
    intro single
    obtain ⟨whole, -⟩ := grown.holds (outline ▸ Outline.getElem?_growTo_single single priming)
    rw [word, single]
    simp [whole]

theorem growTo_generation_branching :
    ∃ system growth, LSystem.compile ⟨"A"⟩ branching false = .ok system ∧
      Reachable system threeLanes growth ∧ threeLanes.seed = some 7 ∧
      growth = run (fun _ => 0) [.step, .growTo 5, .grow 1] (start system threeLanes 0) ∧
      ((growth.growTo 4 0).laneWord? 0).map system.alphabet.decode =
        some [⟨"B"⟩, ⟨"A"⟩, ⟨"A"⟩, ⟨"S2"⟩, ⟨"B"⟩] ∧
      ((growth.growTo 4 0).laneWord? 2).map system.alphabet.decode = some [⟨"x"⟩, ⟨"B"⟩] ∧
      (growth.growTo 4 0).steps = 4 := by
  obtain ⟨system, compiled⟩ := exists_compile_branching
  have reached := reachable_threeLanes system (fun _ => 0) [.step, .growTo 5, .grow 1]
  obtain ⟨-, shares, -, -, -, steps, -⟩ := growTo_generation reached rfl 4 0
  have evaluated : (LSystem.compile ⟨"A"⟩ branching false).toOption.map (fun system =>
      let primed := system.passes 2 [system.start] (laneSource 7 0)
      (system.alphabet.decode (system.passes 2 (Pool.shareOf primed.1 3 0) primed.2).1,
        system.alphabet.decode (system.passes 2 (Pool.shareOf primed.1 3 2) (laneSource 7 2)).1)) =
      some ([⟨"B"⟩, ⟨"A"⟩, ⟨"A"⟩, ⟨"S2"⟩, ⟨"B"⟩], [⟨"x"⟩, ⟨"B"⟩]) := by decide +kernel
  rw [compiled] at evaluated
  obtain ⟨first, last⟩ := Prod.mk.inj (Option.some.inj evaluated)
  refine ⟨system, _, compiled, reached, rfl, rfl, ?_, ?_, steps⟩
  · rw [(shares (by decide) _ _ rfl 0 (by decide)).1]
    exact congrArg some first
  · rw [(shares (by decide) _ _ rfl 2 (by decide)).1]
    exact congrArg some last

end Growth

end Lindenmayer
