import Lindenmayer.Proofs.Growth.Outline

/-!
# Runs that start over

A seeded run that is restarted or forked cannot be told from a new one.  It does differ: its buffers
have grown, and may have changed places.  But the outlines are the same, they stay the same under
every operation, and a caller sees no more than the outline.
-/

namespace Lindenmayer

namespace Growth

/-- No caller can tell two runs apart, whatever is done to both and whichever fresh seeds are at
hand. -/
def Indistinguishable (a b : Growth) : Prop :=
  a.observe = b.observe ∧
    ∀ (operations : List Operation) (fresh fresh' : Nat → UInt64),
      trace fresh operations a = trace fresh' operations b

/-- Two runs of one system with one seed that agree in outline; their settings may differ in the
initial capacity. -/
structure Alike (seed : UInt64) (a b : Growth) : Prop where
  sound_left : a.Sound
  sound_right : b.Sound
  seeded : a.settings.seed = some seed
  system_eq : b.system = a.system
  settings_eq : ∃ capacity, b.settings = a.settings.withCapacity capacity
  outline_eq : a.outline = b.outline

/-- What an operation returns, given the generation that it arrives at. -/
def Operation.returned (word : List Symbol) : Operation → Option (List Symbol)
  | .grow _ | .growTo _ => some word
  | .step | .restart | .fork => none

theorem returned_perform (growth : Growth) (fresh : UInt64) (operation : Operation) :
    (growth.perform fresh operation).2 =
      operation.returned (growth.perform fresh operation).1.word := by
  cases operation <;> rfl

section

variable {R : Growth → Growth → Prop}
  (perform : ∀ {a b}, R a b → ∀ fresh fresh' operation,
    R (a.perform fresh operation).1 (b.perform fresh' operation).1)
  {a b : Growth}
include perform

/-- A relation that every operation keeps holds between the runs after every history. -/
theorem run_related (related : R a b) (operations : List Operation) (fresh fresh' : Nat → UInt64) :
    R (run fresh operations a) (run fresh' operations b) := by
  induction operations generalizing a b fresh fresh' with
  | nil => exact related
  | cons operation rest ih => exact ih (perform related (fresh 0) (fresh' 0) operation) _ _

/-- If moreover related runs look the same in some respect, and hold the same generation, a caller
sees the same in this respect in the course of a history. -/
theorem trace_map_eq_of_related {View : Type} (view : Observation → View)
    (words : ∀ {a b}, R a b → a.word = b.word)
    (seen : ∀ {a b}, R a b → view a.observe = view b.observe) (related : R a b)
    (operations : List Operation) (fresh fresh' : Nat → UInt64) :
    (trace fresh operations a).map (Prod.map id view) =
      (trace fresh' operations b).map (Prod.map id view) := by
  induction operations generalizing a b fresh fresh' with
  | nil => rfl
  | cons operation rest ih =>
    have next := perform related (fresh 0) (fresh' 0) operation
    simp only [trace, List.map_cons, Prod.map_apply, id_eq, returned_perform, words next, seen next]
    rw [ih next]

theorem trace_eq_of_related (seen : ∀ {a b}, R a b → a.observe = b.observe) (related : R a b)
    (operations : List Operation) (fresh fresh' : Nat → UInt64) :
    trace fresh operations a = trace fresh' operations b := by
  simpa using trace_map_eq_of_related perform id
    (fun related => congrArg Observation.word (seen related)) seen related operations fresh fresh'

end

namespace Alike

variable {seed : UInt64} {a b : Growth}

theorem observe_eq (alike : Alike seed a b) : a.observe = b.observe := by
  rw [alike.sound_left.observe_eq, alike.sound_right.observe_eq, alike.outline_eq]

theorem perform (alike : Alike seed a b) (fresh fresh' : UInt64) (operation : Operation) :
    Alike seed (a.perform fresh operation).1 (b.perform fresh' operation).1 where
  sound_left := alike.sound_left.perform fresh operation
  sound_right := alike.sound_right.perform fresh' operation
  seeded := by rw [settings_perform, alike.seeded]
  system_eq := by rw [system_perform, system_perform, alike.system_eq]
  settings_eq := by
    obtain ⟨capacity, settings⟩ := alike.settings_eq
    refine ⟨capacity, ?_⟩
    rw [settings_perform, settings_perform, settings]
  outline_eq := by
    obtain ⟨capacity, settings⟩ := alike.settings_eq
    rw [alike.sound_left.outline_perform, alike.sound_right.outline_perform, alike.system_eq,
      settings, alike.outline_eq, Outline.perform_seeded alike.seeded]

/-- Whatever is done to both, runs that are alike show the same. -/
theorem trace_eq (alike : Alike seed a b) (operations : List Operation)
    (fresh fresh' : Nat → UInt64) : trace fresh operations a = trace fresh' operations b :=
  trace_eq_of_related perform observe_eq alike operations fresh fresh'

theorem indistinguishable (alike : Alike seed a b) : Indistinguishable a b :=
  ⟨alike.observe_eq, alike.trace_eq⟩

end Alike

variable {system : LSystem} {settings : Settings} {seed : UInt64}

theorem alike_start (valid : settings.check = .ok ()) (seeded : settings.seed = some seed)
    {capacity : Nat} (positive : 0 < capacity) (fresh fresh' : UInt64) :
    Alike seed (start system settings fresh)
      (start system (settings.withCapacity capacity) fresh') where
  sound_left := sound_start system valid fresh
  sound_right := sound_start system (Settings.check_withCapacity valid positive) fresh'
  seeded := seeded
  system_eq := rfl
  settings_eq := ⟨capacity, rfl⟩
  outline_eq := by
    rw [outline_start system valid,
      outline_start system (Settings.check_withCapacity valid positive)]
    simp only [Settings.withCapacity, seeded, Option.getD_some]

theorem alike_restart {growth : Growth} (reached : Reachable system settings growth)
    (seeded : settings.seed = some seed) (fresh fresh' : UInt64) :
    Alike seed (growth.restart fresh) (start system settings fresh') := by
  have sound := reached.sound
  obtain rfl := reached.system_eq
  obtain rfl := reached.settings_eq
  refine ⟨sound_restart sound.valid sound.lanes_length fresh, sound_start _ sound.valid fresh',
    seeded, rfl, ⟨growth.settings.initialCapacity, rfl⟩, ?_⟩
  rw [sound.outline_restart, outline_start growth.system sound.valid, seeded]
  rfl

/-- A seeded run keeps no memory of what was done to it: restarted or forked, it cannot be told from
a new run, and neither can a new run that sets aside another capacity to begin with. -/
theorem restart_indistinguishable {growth : Growth} (reached : Reachable system settings growth)
    (seeded : settings.seed = some seed) (fresh first : UInt64) :
    ∃ new, ofSystem system settings first = .ok new ∧
      Indistinguishable (growth.restart fresh) new ∧
      Indistinguishable (growth.fork fresh) new ∧
      ∀ capacity, 0 < capacity → ∀ second,
        ∃ other, ofSystem system (settings.withCapacity capacity) second = .ok other ∧
          Indistinguishable new other := by
  have valid : settings.check = .ok () := reached.settings_eq ▸ reached.sound.valid
  refine ⟨start system settings first, ofSystem_eq_ok_iff.mpr ⟨valid, rfl⟩,
    (alike_restart reached seeded fresh first).indistinguishable, ?forked, ?another⟩
  case forked =>
    -- A fork is a new run with the settings as they are, initial capacity included.
    have allocated := Nat.pos_of_ne_zero (Settings.check_eq_ok_iff.mp valid).2.1
    have forked : growth.fork fresh = start system settings fresh := by
      rw [fork, reached.system_eq, reached.settings_eq]
    rw [forked]
    exact (alike_start valid seeded allocated fresh first).indistinguishable
  case another =>
    intro capacity positive second
    have accepted := Settings.check_withCapacity valid positive
    exact ⟨_, ofSystem_eq_ok_iff.mpr ⟨accepted, rfl⟩,
      (alike_start valid seeded positive first second).indistinguishable⟩

theorem restart_indistinguishable_branching :
    ∃ system growth, LSystem.compile ⟨"A"⟩ branching false = .ok system ∧
      Reachable system threeLanes growth ∧ threeLanes.seed = some 7 ∧
      growth = run (fun _ => 0) [.step, .growTo 5, .grow 1] (start system threeLanes 0) ∧
      ∃ new, ofSystem system threeLanes 1 = .ok new ∧
        trace (fun _ => 2) [.grow 2, .restart, .growTo 4] (growth.restart 3) =
          trace (fun _ => 4) [.grow 2, .restart, .growTo 4] new := by
  obtain ⟨system, compiled⟩ := exists_compile_branching
  have reached := reachable_threeLanes system (fun _ => 0) [.step, .growTo 5, .grow 1]
  obtain ⟨new, started, ⟨-, traces⟩, -⟩ := restart_indistinguishable reached rfl 3 1
  exact ⟨system, _, compiled, reached, rfl, rfl, new, started, traces _ _ _⟩

end Growth

end Lindenmayer
