import Lindenmayer.Proofs.Growth.Replay
import Lindenmayer.Proofs.LSystem.Determinacy

/-!
# Growth that leaves nothing to chance

If every pass is settled without its random source, the sources of a run stay as they were seeded.
Two runs that differ in their seeds, in the capacities they begin with, and in whether their
samplers use tables then hold the same words in the same lanes, whatever is done to both.
-/

namespace Lindenmayer

/-- The settings divide a run among lanes in the same way.  They may differ in the seed, in the
capacity set aside to begin with, and in whether they ask for tables. -/
structure Settings.SameDivision (settings settings' : Settings) : Prop where
  lanes_eq : settings.lanes = settings'.lanes
  parallelThreshold_eq : settings.parallelThreshold = settings'.parallelThreshold
  primingSteps_eq : settings.primingSteps = settings'.primingSteps

namespace Outline

/-! ### Words and sources, apart -/

section

variable {system : LSystem} {next : List Symbol → List Symbol} (follows : system.Follows next)
include follows

theorem words_advance (outline : Outline) (count : Nat) :
    (outline.advance system count).words = outline.words.map next^[count] := by
  simp only [words, advance, List.map_map]
  apply List.map_congr_left
  intro part _
  exact congrArg Prod.fst (follows.passes_eq count part.1 part.2)

theorem sources_advance (outline : Outline) (count : Nat) :
    (outline.advance system count).sources = outline.sources := by
  simp only [sources, advance, List.map_map]
  apply List.map_congr_left
  intro part _
  rw [Function.comp_apply, follows.passes_eq]

end

@[simp] theorem seed_growTo (system : LSystem) (settings : Settings) (count : Nat)
    (seed : UInt64) : (growTo system settings count seed).seed = seed := by
  unfold growTo
  dsimp only
  split <;> rfl

/-! ### Sources that are never touched -/

/-- The sources are as they were seeded. -/
def AsSeeded (lanes : Nat) (outline : Outline) : Prop :=
  outline.sources = Growth.seededSources outline.seed lanes

section

variable {system : LSystem} {next : List Symbol → List Symbol} {lanes : Nat} {outline : Outline}

theorem AsSeeded.spread (asSeeded : outline.AsSeeded lanes) : outline.spread.AsSeeded lanes :=
  (sources_spread outline).trans asSeeded

variable (follows : system.Follows next)
include follows

theorem AsSeeded.advance (asSeeded : outline.AsSeeded lanes) (count : Nat) :
    (outline.advance system count).AsSeeded lanes :=
  (sources_advance follows outline count).trans asSeeded

/-- No operation touches a source, but for seeding it anew. -/
theorem AsSeeded.perform {settings : Settings} (asSeeded : outline.AsSeeded settings.lanes)
    (fresh : UInt64) (operation : Growth.Operation) :
    (outline.perform system settings fresh operation).AsSeeded settings.lanes := by
  have new : ∀ seed, (initial system settings.lanes seed).AsSeeded settings.lanes :=
    sources_initial system settings.lanes
  cases operation with
  | step => exact asSeeded.advance follows 1
  | grow count => exact asSeeded.advance follows count
  | growTo count =>
    rw [Outline.perform, growTo]
    split
    · exact (new _).advance follows count
    · exact ((new _).advance follows _).spread.advance follows _
  | restart | fork => exact new _

end

/-! ### Outlines that hold the same words -/

/-- The lanes hold the same words, after the same number of steps. -/
structure SameWords (a b : Outline) : Prop where
  words_eq : a.words = b.words
  steps_eq : a.steps = b.steps

section

variable {system system' : LSystem} {next : List Symbol → List Symbol} {a b : Outline}

theorem sameWords_initial (starts : system.start = system'.start) {settings settings' : Settings}
    (division : settings.SameDivision settings') (seed seed' : UInt64) :
    SameWords (initial system settings.lanes seed) (initial system' settings'.lanes seed') where
  words_eq := by rw [words_initial, words_initial, starts, division.lanes_eq]
  steps_eq := rfl

theorem SameWords.spread (same : SameWords a b) : SameWords a.spread b.spread where
  words_eq := by rw [words_spread, words_spread, same.words_eq]
  steps_eq := same.steps_eq

theorem SameWords.observe (same : SameWords a b) :
    { a.observe with seed := 0 } = { b.observe with seed := 0 } := by
  have laneWords : ∀ outline : Outline,
      (fun lane : Nat => outline.parts[lane]?.map Prod.fst) = fun lane => outline.words[lane]? := by
    intro outline
    funext lane
    rw [words, List.getElem?_map]
  have word : ∀ outline : Outline, outline.parts.flatMap Prod.fst = outline.words.flatten := by
    intro outline
    rw [words, List.flatMap_def]
  simp only [Outline.observe, laneWords, word, same.words_eq, same.steps_eq]

variable (follows : system.Follows next) (follows' : system'.Follows next)
include follows follows'

theorem SameWords.advance (same : SameWords a b) (count : Nat) :
    SameWords (a.advance system count) (b.advance system' count) where
  words_eq := by
    rw [words_advance follows, words_advance follows', same.words_eq]
  steps_eq := congrArg (· + count) same.steps_eq

/-- Operations on outlines that hold the same words lead to such outlines again, whichever seeds
they use. -/
theorem SameWords.perform (starts : system.start = system'.start) {settings settings' : Settings}
    (division : settings.SameDivision settings') (same : SameWords a b) (fresh fresh' : UInt64)
    (operation : Growth.Operation) :
    SameWords (a.perform system settings fresh operation)
      (b.perform system' settings' fresh' operation) := by
  have new := sameWords_initial starts division
  cases operation with
  | step => exact same.advance follows follows' 1
  | grow count => exact same.advance follows follows' count
  | growTo count =>
    simp only [Outline.perform, growTo, division.parallelThreshold_eq, division.primingSteps_eq]
    split
    · exact (new _ _).advance follows follows' count
    · exact ((new _ _).advance follows follows' _).spread.advance follows follows' _
  | restart | fork => exact new _ _

end

end Outline

namespace Growth

/-- What a caller sees of a run apart from its seed. -/
def Observation.seedless (observation : Observation) : Observation :=
  { observation with seed := 0 }

/-- The sources of a run are at any time as the seed in use has made them. -/
theorem Reachable.sources_eq {system : LSystem} {next : List Symbol → List Symbol}
    (follows : system.Follows next) {settings : Settings} {growth : Growth}
    (reached : Reachable system settings growth) :
    growth.sources = seededSources growth.seed settings.lanes := by
  have asSeeded : growth.outline.AsSeeded settings.lanes :=
    reached.outline_induction (motive := Outline.AsSeeded settings.lanes)
      (fun _ => Outline.sources_initial system settings.lanes _)
      fun _ fresh operation kept => kept.perform follows fresh operation
  rw [← reached.sound.map_snd_parts]
  exact asSeeded

/-- The seed in use in a seeded run is the one that the settings name. -/
theorem Reachable.seed_eq {system : LSystem} {settings : Settings} {growth : Growth} {seed : UInt64}
    (reached : Reachable system settings growth) (seeded : settings.seed = some seed) :
    growth.seed = seed := by
  have named : ∀ fresh, settings.seed.getD fresh = seed := fun fresh => by
    rw [seeded, Option.getD_some]
  have kept : growth.outline.seed = seed := by
    refine reached.outline_induction (motive := fun outline => outline.seed = seed) named ?_
    intro outline fresh operation kept
    cases operation with
    | step | grow => exact kept
    | growTo count => rw [Outline.perform, Outline.seed_growTo, named]
    | restart | fork => exact named fresh
  exact kept

/-- Two runs that hold the same words in the same lanes. -/
structure SideBySide (a b : LSystem) (settings settings' : Settings) (x y : Growth) : Prop where
  left : x.IsRunOf a settings
  right : y.IsRunOf b settings'
  sameWords : x.outline.SameWords y.outline

section

variable {a b : LSystem} {settings settings' : Settings} {x y : Growth}

theorem SideBySide.observe (side : SideBySide a b settings settings' x y) :
    x.observe.seedless = y.observe.seedless := by
  rw [side.left.sound.observe_eq, side.right.sound.observe_eq]
  exact side.sameWords.observe

variable (starts : a.start = b.start) (division : settings.SameDivision settings')
include starts division

theorem sideBySide_start (valid : settings.check = .ok ()) (valid' : settings'.check = .ok ())
    (fresh fresh' : UInt64) :
    SideBySide a b settings settings' (start a settings fresh) (start b settings' fresh') where
  left := isRunOf_start a valid fresh
  right := isRunOf_start b valid' fresh'
  sameWords := by
    rw [outline_start a valid, outline_start b valid']
    exact Outline.sameWords_initial starts division _ _

/-- Whatever is done to both, they hold the same words again. -/
theorem SideBySide.perform {next : List Symbol → List Symbol} (follows : a.Follows next)
    (follows' : b.Follows next) (side : SideBySide a b settings settings' x y)
    (fresh fresh' : UInt64) (operation : Operation) :
    SideBySide a b settings settings' (x.perform fresh operation).1
      (y.perform fresh' operation).1 where
  left := side.left.perform fresh operation
  right := side.right.perform fresh' operation
  sameWords := by
    rw [side.left.outline_perform, side.right.outline_perform]
    exact side.sameWords.perform follows follows' starts division fresh fresh' operation

end

/-- Whatever is done to both runs, their lanes hold the same words, a caller sees the same but for
the seed, and the sources are still as the one and the other seed has made them. -/
structure InUnisonButForSeed (lanes : Nat) (seed seed' : UInt64) (x y : Growth) : Prop where
  laneWord_eq : ∀ (operations : List Operation) (fresh fresh' : Nat → UInt64),
    (run fresh operations x).laneWord? = (run fresh' operations y).laneWord?
  trace_eq : ∀ (operations : List Operation) (fresh fresh' : Nat → UInt64),
    (trace fresh operations x).map (Prod.map id Observation.seedless) =
      (trace fresh' operations y).map (Prod.map id Observation.seedless)
  sources_left : ∀ (operations : List Operation) (fresh : Nat → UInt64),
    (run fresh operations x).sources = seededSources seed lanes
  sources_right : ∀ (operations : List Operation) (fresh : Nat → UInt64),
    (run fresh operations y).sources = seededSources seed' lanes

/-- New seeded runs that divide their work in the same way, of systems that follow one function. -/
theorem exists_inUnisonButForSeed {a b : LSystem} {next : List Symbol → List Symbol}
    (follows : a.Follows next) (follows' : b.Follows next) (starts : a.start = b.start)
    {settings settings' : Settings} (valid : settings.check = .ok ())
    (valid' : settings'.check = .ok ()) (division : settings.SameDivision settings')
    {seed seed' : UInt64} (seeded : settings.seed = some seed)
    (seeded' : settings'.seed = some seed') (fresh fresh' : UInt64) :
    ∃ x y, ofSystem a settings fresh = .ok x ∧ ofSystem b settings' fresh' = .ok y ∧
      InUnisonButForSeed settings.lanes seed seed' x y := by
  have started : ofSystem a settings fresh = .ok (start a settings fresh) :=
    ofSystem_eq_ok_iff.mpr ⟨valid, rfl⟩
  have started' : ofSystem b settings' fresh' = .ok (start b settings' fresh') :=
    ofSystem_eq_ok_iff.mpr ⟨valid', rfl⟩
  have new := sideBySide_start starts division valid valid' fresh fresh'
  have performed : ∀ {x y}, SideBySide a b settings settings' x y → ∀ fresh fresh' operation,
      SideBySide a b settings settings' (x.perform fresh operation).1
        (y.perform fresh' operation).1 :=
    SideBySide.perform starts division follows follows'
  refine ⟨_, _, started, started', ?_⟩
  refine
    { laneWord_eq := ?lanes
      trace_eq := ?seen
      sources_left := ?left
      sources_right := ?right }
  case lanes =>
    intro operations supply supply'
    exact congrArg Observation.laneWord?
      (run_related performed new operations supply supply').observe
  case seen =>
    exact trace_map_eq_of_related performed Observation.seedless
      (fun side => congrArg Observation.word side.observe) SideBySide.observe new
  case left =>
    intro operations supply
    have reached : Reachable a settings (run supply operations (start a settings fresh)) :=
      ⟨fresh, _, supply, operations, started, rfl⟩
    rw [reached.sources_eq follows, reached.seed_eq seeded]
  case right =>
    intro operations supply
    have reached : Reachable b settings' (run supply operations (start b settings' fresh')) :=
      ⟨fresh', _, supply, operations, started', rfl⟩
    rw [reached.sources_eq follows', reached.seed_eq seeded', division.lanes_eq]

/-- Where at most one alternative of each rule can be drawn behind any symbol, the seed has no
effect.  Compiled with tables or without, such a grammar is grown without taking anything from a
random source.  Two seeded runs that divide their work among lanes in the same way, whatever their
seeds and initial capacities, go on in unison, but for the seed itself and the sources made of it,
which nothing is ever drawn from. -/
theorem seed_irrelevant {start : Name} {grammar : Grammar} {flag : Bool} {compiled : LSystem}
    (accepted : LSystem.compile start grammar flag = .ok compiled)
    (determinate : grammar.Determinate compiled.alphabet) (tabulate tabulate' : Bool) :
    ∃ system system', LSystem.compile start grammar tabulate = .ok system ∧
      LSystem.compile start grammar tabulate' = .ok system' ∧
      (∀ {G : Type} [WordSource G] (word : List Symbol) (source : G),
        (system.pass word source).2 = source ∧ (system'.pass word source).2 = source) ∧
      ∀ settings settings' seed seed', settings.check = .ok () → settings'.check = .ok () →
        settings.SameDivision settings' → settings.seed = some seed → settings'.seed = some seed' →
        ∀ fresh fresh', ∃ growth growth', ofSystem system settings fresh = .ok growth ∧
          ofSystem system' settings' fresh' = .ok growth' ∧
          InUnisonButForSeed settings.lanes seed seed' growth growth' := by
  have given := LSystem.exists_compile_iff.mp ⟨_, accepted⟩
  obtain ⟨system, here⟩ := LSystem.exists_compile_of_accepted given tabulate
  obtain ⟨system', there⟩ := LSystem.exists_compile_of_accepted given tabulate'
  obtain ⟨_, first⟩ := LSystem.exists_compiles accepted
  obtain ⟨_, compiles⟩ := LSystem.exists_compiles here
  obtain ⟨_, compiles'⟩ := LSystem.exists_compiles there
  have names := Grammar.SameNames.refl grammar
  have follows : system.Follows system.successor := by
    rw [first.alphabet_eq_of_sameNames compiles names] at determinate
    exact (compiles.determinate determinate).follows compiles.prepared
  have follows' : system'.Follows system.successor := by
    rw [first.alphabet_eq_of_sameNames compiles' names] at determinate
    rw [compiles.successor_eq compiles']
    exact (compiles'.determinate determinate).follows compiles'.prepared
  refine ⟨system, system', here, there, ?undrawn, ?runs⟩
  case undrawn =>
    intro G _ word source
    exact ⟨congrArg Prod.snd (follows word source), congrArg Prod.snd (follows' word source)⟩
  case runs =>
    intro settings settings' seed seed' valid valid' division seeded seeded' fresh fresh'
    exact exists_inUnisonButForSeed follows follows'
      (compiles.start_eq_of_sameNames compiles' names) valid valid' division seeded seeded'
      fresh fresh'

/-- A grammar in which every draw is settled by the symbol that stands before: `A` becomes something
else at the beginning of a lane, behind `A` and behind `B`, and stays behind everything else. -/
def contextual : Grammar :=
  Grammar.ofRules
    [⟨⟨"A"⟩, [⟨2, some ⟨"A"⟩, [⟨"B"⟩, ⟨"A"⟩]⟩, ⟨1, some ⟨""⟩, [⟨"A"⟩, ⟨"A"⟩]⟩, ⟨0, none, [⟨"x"⟩]⟩,
        ⟨3, some ⟨"B"⟩, [⟨"x"⟩, ⟨"A"⟩]⟩], by simp⟩,
      ⟨⟨"B"⟩, [⟨1, none, [⟨"A"⟩, ⟨"S2"⟩]⟩, ⟨-1, some ⟨"A"⟩, []⟩], by simp⟩,
      ⟨⟨"S1"⟩, [⟨2, none, []⟩], by simp⟩]

/-- Seeds 7 and 8, with tables and without, and buffers of different capacities. -/
theorem seed_irrelevant_contextual :
    ∃ compiled system system' growth growth',
      LSystem.compile ⟨"A"⟩ contextual false = .ok compiled ∧
      contextual.Determinate compiled.alphabet ∧
      LSystem.compile ⟨"A"⟩ contextual true = .ok system ∧
      LSystem.compile ⟨"A"⟩ contextual false = .ok system' ∧
      threeLanes.check = .ok () ∧ threeLanes.seed = some 7 ∧
      Settings.check ⟨3, 1, 3, 2, true, some 8⟩ = .ok () ∧
      threeLanes.SameDivision ⟨3, 1, 3, 2, true, some 8⟩ ∧
      ofSystem system threeLanes 0 = .ok growth ∧
      ofSystem system' ⟨3, 1, 3, 2, true, some 8⟩ 1 = .ok growth' ∧
      InUnisonButForSeed 3 7 8 growth growth' ∧
      ((start compiled threeLanes 0).growTo 4 0).names =
        ["A", "A", "B", "A", "A", "A", "B", "A", "A", "A", "x", "A"].map Name.mk := by
  have evaluated : (LSystem.compile ⟨"A"⟩ contextual false).toOption.map (fun compiled =>
      (decide (contextual.Determinate compiled.alphabet),
        ((start compiled threeLanes 0).growTo 4 0).names)) =
      some (true, ["A", "A", "B", "A", "A", "A", "B", "A", "A", "A", "x", "A"].map Name.mk) := by
    decide +kernel
  obtain ⟨compiled, accepted, read⟩ := exists_ok_of_toOption_map evaluated
  obtain ⟨decided, names⟩ := Prod.mk.inj read
  have determinate := of_decide_eq_true decided
  obtain ⟨system, system', here, there, -, runs⟩ :=
    seed_irrelevant accepted determinate true false
  have valid : threeLanes.check = .ok () := rfl
  have valid' : Settings.check ⟨3, 1, 3, 2, true, some 8⟩ = .ok () := rfl
  have division : threeLanes.SameDivision ⟨3, 1, 3, 2, true, some 8⟩ := ⟨rfl, rfl, rfl⟩
  obtain ⟨growth, growth', started, started', unison⟩ :=
    runs threeLanes ⟨3, 1, 3, 2, true, some 8⟩ 7 8 valid valid' division rfl rfl 0 1
  exact ⟨compiled, system, system', growth, growth', accepted, determinate, here, there, valid, rfl,
    valid', division, started, started', unison, names⟩

end Growth

end Lindenmayer
