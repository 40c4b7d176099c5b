import Mathlib.Logic.Relation
import Mathlib.Data.List.Forall2
import Lindenmayer.Proofs.Growth.Operations

/-!
# Schedules of parallel growth

When the lanes of a run grow in parallel, they may take their steps in any order.  Each works on
its own buffers with its own source, so a lane is at any time where its own steps have brought it,
and what the lanes arrive at does not depend on the schedule.
-/

namespace Lindenmayer

/-- A lane at work: its random source, and how many steps it has taken. -/
structure Worker where
  lane : Lane
  source : ChaCha
  taken : Nat

namespace Worker

/-- Takes the next step. -/
def advance (system : LSystem) (worker : Worker) : Worker :=
  let (lane, source) := worker.lane.step system worker.source
  ⟨lane, source, worker.taken + 1⟩

/-- One of several workers that has taken fewer than `limit` steps takes its next one, while the
others wait. -/
inductive Turn (system : LSystem) (limit : Nat) : List Worker → List Worker → Prop
  | head {worker : Worker} {rest : List Worker} (free : worker.taken < limit) :
      Turn system limit (worker :: rest) (worker.advance system :: rest)
  | tail {worker : Worker} {rest rest' : List Worker} (turn : Turn system limit rest rest') :
      Turn system limit (worker :: rest) (worker :: rest')

/-- A worker is where its own steps have brought it from a given beginning, and it has not taken
more than it may. -/
structure OnCourse (system : LSystem) (limit : Nat) (begun : Lane × ChaCha) (worker : Worker) :
    Prop where
  state_eq : (worker.lane, worker.source) = begun.1.stepN system worker.taken begun.2
  taken_le : worker.taken ≤ limit

variable {system : LSystem} {limit : Nat}

theorem OnCourse.advance {begun : Lane × ChaCha} {worker : Worker}
    (onCourse : OnCourse system limit begun worker) (free : worker.taken < limit) :
    OnCourse system limit begun (worker.advance system) where
  state_eq := by
    have state := onCourse.state_eq
    have further := Lane.stepN_add system worker.taken 1 begun.1 begun.2
    rw [← state] at further
    exact further.symm
  taken_le := free

/-- A turn keeps all workers on course: it moves one of them on, and no other is touched. -/
theorem Turn.onCourse {begun : List (Lane × ChaCha)} {workers workers' : List Worker}
    (turn : Turn system limit workers workers')
    (onCourse : List.Forall₂ (OnCourse system limit) begun workers) :
    List.Forall₂ (OnCourse system limit) begun workers' := by
  induction turn generalizing begun with
  | head free =>
    cases onCourse with
    | cons first others => exact .cons (first.advance free) others
  | tail _ ih =>
    cases onCourse with
    | cons first others => exact .cons first (ih others)

theorem onCourse_of_turns {begun : List (Lane × ChaCha)} {workers workers' : List Worker}
    (turns : Relation.ReflTransGen (Turn system limit) workers workers')
    (onCourse : List.Forall₂ (OnCourse system limit) begun workers) :
    List.Forall₂ (OnCourse system limit) begun workers' := by
  induction turns with
  | refl => exact onCourse
  | tail _ turn ih => exact turn.onCourse ih

/-- Workers that have taken all their steps are where as many steps at once bring their lanes. -/
theorem state_eq_of_done {begun : List (Lane × ChaCha)} {workers : List Worker}
    (onCourse : List.Forall₂ (OnCourse system limit) begun workers)
    (done : ∀ worker ∈ workers, worker.taken = limit) :
    (workers.map fun worker => (worker.lane, worker.source)) =
      begun.map fun entry => entry.1.stepN system limit entry.2 := by
  induction onCourse with
  | nil => rfl
  | @cons entry worker _ _ first _ ih =>
    have here := first.state_eq
    rw [done worker List.mem_cons_self] at here
    rw [List.map_cons, List.map_cons, here, ih fun other member => done other (.tail _ member)]

/-- A worker can go on until it has taken all its steps. -/
theorem exists_turns_head {worker : Worker} (free : worker.taken ≤ limit) (rest : List Worker) :
    ∃ finished : Worker, finished.taken = limit ∧
      Relation.ReflTransGen (Turn system limit) (worker :: rest) (finished :: rest) := by
  induction remaining : limit - worker.taken generalizing worker with
  | zero => exact ⟨worker, by omega, .refl⟩
  | succ count ih =>
    have below : worker.taken < limit := by omega
    have fewer : limit - (worker.advance system).taken = count := by
      show limit - (worker.taken + 1) = count
      omega
    have advanced : (worker.advance system).taken ≤ limit := below
    obtain ⟨finished, done, turns⟩ := ih advanced fewer
    exact ⟨finished, done, .head (.head below) turns⟩

/-- Whatever turns have been taken, the rest can be. -/
theorem exists_turns {begun : List (Lane × ChaCha)} {workers : List Worker}
    (onCourse : List.Forall₂ (OnCourse system limit) begun workers) :
    ∃ finished : List Worker, (∀ worker ∈ finished, worker.taken = limit) ∧
      Relation.ReflTransGen (Turn system limit) workers finished := by
  induction onCourse with
  | nil => exact ⟨[], by simp, .refl⟩
  | @cons _ _ _ rest first _ ih =>
    obtain ⟨others, othersDone, later⟩ := ih
    obtain ⟨finished, done, turns⟩ := exists_turns_head first.taken_le rest
    have waiting : Relation.ReflTransGen (Turn system limit) (finished :: rest)
        (finished :: others) :=
      later.lift (List.cons finished) fun _ _ => Turn.tail
    refine ⟨finished :: others, ?_, turns.trans waiting⟩
    intro other member
    rcases List.mem_cons.mp member with rfl | member
    · exact done
    · exact othersDone other member

end Worker

namespace Growth

variable {growth : Growth}

/-- The lanes of a run with their sources, before parallel growth. -/
def crew (growth : Growth) : List Worker :=
  (growth.pool.lanes.zip growth.sources).map fun entry => ⟨entry.1, entry.2, 0⟩

theorem Sound.length_crew (sound : growth.Sound) : growth.crew.length = growth.settings.lanes := by
  simp [crew, sound.lanes_length, sound.sources_length]

theorem taken_of_mem_crew {worker : Worker} (member : worker ∈ growth.crew) : worker.taken = 0 := by
  obtain ⟨_, _, rfl⟩ := List.mem_map.mp member
  rfl

theorem onCourse_crew (growth : Growth) (limit : Nat) :
    List.Forall₂ (Worker.OnCourse growth.system limit) (growth.pool.lanes.zip growth.sources)
      growth.crew := by
  rw [crew, List.forall₂_map_right_iff]
  exact List.forall₂_same.mpr fun _ _ => ⟨rfl, Nat.zero_le limit⟩

/-- Parallel growth does not depend on the schedule.  In whatever order the lanes take their steps,
once each has taken all of them, the lanes and their sources are those of growing lane by lane; any
schedule can be carried on until then; and growing step by step, all lanes at a time, ends in the
very same state. -/
theorem grow_schedule_independent {system : LSystem} {settings : Settings}
    (reached : Reachable system settings growth) (count : Nat) :
    (∀ finished, Relation.ReflTransGen (Worker.Turn system count) growth.crew finished →
      (∀ worker ∈ finished, worker.taken = count) →
        finished.map Worker.lane = (growth.grow count).pool.lanes ∧
          finished.map Worker.source = (growth.grow count).sources) ∧
    (∀ workers, Relation.ReflTransGen (Worker.Turn system count) growth.crew workers →
      ∃ finished, (∀ worker ∈ finished, worker.taken = count) ∧
        Relation.ReflTransGen (Worker.Turn system count) workers finished) ∧
    growth.stepTimes count = growth.grow count := by
  have sound := reached.sound
  obtain rfl := reached.system_eq
  refine ⟨?finished, ?progress, (sound.stepTimes_eq count).trans (sound.grow_eq count).symm⟩
  case finished =>
    intro finished turns done
    have state := Worker.state_eq_of_done
      (Worker.onCourse_of_turns turns (onCourse_crew growth count)) done
    have lanes := congrArg (List.map Prod.fst) state
    have sources := congrArg (List.map Prod.snd) state
    rw [List.map_map, List.map_map] at lanes sources
    rw [sound.grow_eq, lanes_stepLanes, sources_stepLanes]
    exact ⟨lanes, sources⟩
  case progress =>
    intro workers turns
    exact Worker.exists_turns (Worker.onCourse_of_turns turns (onCourse_crew growth count))

theorem grow_schedule_independent_branching :
    ∃ system growth a b c, LSystem.compile ⟨"A"⟩ branching false = .ok system ∧
      Reachable system threeLanes growth ∧
      growth = run (fun _ => 0) [.step, .growTo 5, .grow 1] (start system threeLanes 0) ∧
      growth.crew = [a, b, c] ∧
      Relation.ReflTransGen (Worker.Turn system 2) growth.crew
        [(a.advance system).advance system, (b.advance system).advance system,
          (c.advance system).advance system] ∧
      [((a.advance system).advance system).lane, ((b.advance system).advance system).lane,
        ((c.advance system).advance system).lane] = (growth.grow 2).pool.lanes ∧
      growth.stepTimes 2 = growth.grow 2 := by
  obtain ⟨system, compiled⟩ := exists_compile_branching
  have reached := reachable_threeLanes system (fun _ => 0) [.step, .growTo 5, .grow 1]
  obtain ⟨finishes, -, alternates⟩ := grow_schedule_independent reached 2
  obtain ⟨a, b, c, crew⟩ := List.length_eq_three.mp reached.sound.length_crew
  have taken : ∀ worker ∈ [a, b, c], worker.taken = 0 := by
    rw [← crew]
    intro worker
    exact taken_of_mem_crew
  have first : ∀ worker ∈ [a, b, c], worker.taken < 2 := by
    intro worker member
    rw [taken worker member]
    decide
  have second : ∀ worker ∈ [a, b, c], (worker.advance system).taken < 2 := by
    intro worker member
    show worker.taken + 1 < 2
    rw [taken worker member]
    decide
  -- The last lane begins, the middle one takes its steps in a row, and the first one ends.
  have turns : Relation.ReflTransGen (Worker.Turn system 2) [a, b, c]
      [(a.advance system).advance system, (b.advance system).advance system,
        (c.advance system).advance system] :=
    .head (.tail (.tail (.head (first c (by simp))))) <|
    .head (.head (first a (by simp))) <|
    .head (.tail (.head (first b (by simp)))) <|
    .head (.tail (.head (second b (by simp)))) <|
    .head (.tail (.tail (.head (second c (by simp))))) <|
    .head (.head (second a (by simp))) .refl
  rw [← crew] at turns
  obtain ⟨lanes, -⟩ := finishes _ turns fun worker member => by
    simp only [List.mem_cons, List.not_mem_nil, or_false] at member
    rcases member with rfl | rfl | rfl <;> simp [Worker.advance, taken]
  exact ⟨system, _, a, b, c, compiled, reached, rfl, crew, turns, lanes, alternates⟩

end Growth

end Lindenmayer
