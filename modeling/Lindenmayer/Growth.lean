import Lindenmayer.Growth.Settings
import Lindenmayer.LSystem
import Lindenmayer.Random.ChaCha

/-!
# Growth

A run grows the generations of an L-system, starting from its start symbol, over a fixed number of
lanes.  Every lane derives its part of the next generation with a random source of its own, seeded
from the seed of the run and the number of the lane, so that the outcome depends on nothing else.

The seed comes from the settings.  Where they name none, the caller supplies a fresh one to each
operation that restarts the run.
-/

namespace Lindenmayer

/-- The state of a run. -/
structure Growth where
  system : LSystem
  settings : Settings
  pool : Pool
  /-- The random source of each lane. -/
  sources : List ChaCha
  /-- The seed in use since the last restart. -/
  seed : UInt64
  /-- The number of steps taken since the last restart. -/
  steps : Nat

/-- Derives the next word of a lane and makes it current. -/
def Lane.step {G : Type} [WordSource G] (system : LSystem) (lane : Lane) (source : G) :
    Lane × G :=
  let (written, source) := system.derive lane.word lane.write source
  ((Lane.mk lane.read written).swap, source)

/-- Lets a lane take a number of steps. -/
def Lane.stepN {G : Type} [WordSource G] (system : LSystem) : Nat → Lane → G → Lane × G
  | 0, lane, source => (lane, source)
  | count + 1, lane, source =>
    let (lane, source) := lane.step system source
    Lane.stepN system count lane source

namespace Growth

/-- The seed of one lane of a run; it wraps around at `2 ^ 64`. -/
def seedForLane (seed : UInt64) (lane : Nat) : UInt64 := seed + lane.toUInt64

/-- The random sources of the lanes of a run. -/
def seededSources (seed : UInt64) (lanes : Nat) : List ChaCha :=
  (List.range lanes).map fun lane => ChaCha.ofSeed (seedForLane seed lane)

/-- Returns to the start symbol and seeds every lane anew. -/
def restart (growth : Growth) (fresh : UInt64) : Growth :=
  let seed := growth.settings.seed.getD fresh
  { growth with
    pool := growth.pool.reset growth.system.start
    sources := seededSources seed growth.pool.lanes.length
    seed := seed
    steps := 0 }

/-- A run of a compiled system that has taken no steps. -/
def start (system : LSystem) (settings : Settings) (fresh : UInt64) : Growth :=
  restart
    { system := system
      settings := settings
      pool := Pool.ofLanes settings.lanes settings.initialCapacity
      sources := []
      seed := 0
      steps := 0 }
    fresh

/-- Prepares a run of a compiled system.  Whether the settings ask for tables has no effect here:
the samplers of the system are fixed. -/
def ofSystem (system : LSystem) (settings : Settings) (fresh : UInt64) : Except Error Growth :=
  settings.check.map fun () => start system settings fresh

/-- Compiles a grammar and prepares a run of it.  Settings pass the check however many lanes and
however large buffers they ask for, also where there is no memory to hold these.  A program stops
there when it sets them aside, which is not an error of this kind and outside what is described
here. -/
def ofGrammar (start : Name) (grammar : Grammar) (settings : Settings) (fresh : UInt64) :
    Except Error Growth := do
  settings.check
  let system ← LSystem.compile start grammar settings.tabulate
  ofSystem system settings fresh

/-- A new run of the same system with the same settings. -/
def fork (growth : Growth) (fresh : UInt64) : Growth := start growth.system growth.settings fresh

/-- Lets every lane that has a source take `count` steps. -/
def stepLanes (growth : Growth) (count : Nat) : Growth :=
  let stepped := List.zipWith (fun lane source => lane.stepN growth.system count source)
    growth.pool.lanes growth.sources
  { growth with
    pool := ⟨stepped.map Prod.fst⟩
    sources := stepped.map Prod.snd
    steps := growth.steps + count }

/-- Takes one step with every lane. -/
def step (growth : Growth) : Growth := growth.stepLanes 1

/-- Takes `count` steps with every lane, each on its own. -/
def grow (growth : Growth) (count : Nat) : Growth :=
  if count = 0 then growth else growth.stepLanes count

/-- Takes `count` steps one after another. -/
def stepTimes : Nat → Growth → Growth
  | 0, growth => growth
  | count + 1, growth => stepTimes count growth.step

/-- Splits the generation, which the first lane holds, over all lanes. -/
def spread (growth : Growth) : Growth := { growth with pool := growth.pool.spread }

/-- Restarts and grows to generation `count`.  Below the threshold all steps are taken one after
another.  From the threshold on, the first lane takes the priming steps, its word is spread over
the lanes, and these take the remaining steps each on its own. -/
def growTo (growth : Growth) (count : Nat) (fresh : UInt64) : Growth :=
  let growth := growth.restart fresh
  if count < growth.settings.parallelThreshold then
    stepTimes count growth
  else
    let priming := min growth.settings.primingSteps count
    ((stepTimes priming growth).spread).grow (count - priming)

/-! ### Views of the generation -/

/-- The current generation. -/
def word (growth : Growth) : List Symbol := growth.pool.word

/-- The names of the current generation. -/
def names (growth : Growth) : List Name := growth.system.alphabet.decode growth.word

/-- The part of the current generation that one lane holds. -/
def laneWord? (growth : Growth) (lane : Nat) : Option (List Symbol) :=
  growth.pool.lanes[lane]?.map Lane.word

/-- The number of symbols in the current generation. -/
def size (growth : Growth) : Nat := growth.pool.size

/-- Whether the current generation is empty. -/
def isEmpty (growth : Growth) : Bool := growth.pool.isEmpty

end Growth

end Lindenmayer
