import Lindenmayer.Proofs.Growth.Derivations
import Lindenmayer.Proofs.Growth.Replay
import Lindenmayer.Proofs.LSystem.Agreement

/-!
# Runs of systems that agree

Where two L-systems agree on a kind of symbols, their runs hold symbols of that kind only, and with
the same settings and the same seed they go through the same outlines.  So no caller can tell them
apart, and the random sources of their lanes are always in the same state.
-/

namespace Lindenmayer

namespace Outline

variable {P : Symbol → Prop} {a b : LSystem} {outline : Outline}

/-- Every lane holds symbols of a kind only. -/
def Within (P : Symbol → Prop) (outline : Outline) : Prop :=
  ∀ part ∈ outline.parts, ∀ symbol ∈ part.1, P symbol

theorem mem_of_mem_shareOf {word : List Symbol} {count index : Nat} {symbol : Symbol}
    (member : symbol ∈ Pool.shareOf word count index) : symbol ∈ word := by
  rw [Pool.shareOf] at member
  split at member
  · exact List.mem_of_mem_drop member
  · rw [List.extract_eq_take_drop] at member
    exact List.mem_of_mem_drop (List.mem_of_mem_take member)

theorem Within.spread (within : outline.Within P) : outline.spread.Within P := by
  intro part member
  obtain ⟨lane, bound, rfl⟩ := List.mem_mapIdx.mp member
  intro symbol inside
  obtain ⟨first, rest, parts⟩ := List.exists_cons_of_length_pos (Nat.zero_lt_of_lt bound)
  have spread := mem_of_mem_shareOf inside
  rw [parts] at spread
  exact within first (by rw [parts]; exact List.mem_cons_self) symbol spread

section

variable (agree : LSystem.AgreeOn P a b)
include agree

theorem within_initial (lanes : Nat) (seed : UInt64) : (initial a lanes seed).Within P := by
  intro part member symbol inside
  obtain ⟨lane, -, rfl⟩ := List.mem_map.mp member
  have first : symbol = a.start := by
    by_cases idle : lane = 0
    · simpa [idle] using inside
    · simp [idle] at inside
  rw [first]
  exact agree.start

theorem initial_eq (lanes : Nat) (seed : UInt64) : initial a lanes seed = initial b lanes seed := by
  rw [initial, initial, agree.start_eq]

theorem Within.advance (within : outline.Within P) (count : Nat) :
    (outline.advance a count).Within P := by
  intro part member
  obtain ⟨before, held, rfl⟩ := List.mem_map.mp member
  exact (agree.passes_eq (within before held) count before.2).1

theorem Within.advance_eq (within : outline.Within P) (count : Nat) :
    outline.advance a count = outline.advance b count := by
  have parts : (outline.advance a count).parts = (outline.advance b count).parts :=
    List.map_congr_left fun part member =>
      (agree.passes_eq (within part member) count part.2).2
  exact Outline.ext parts rfl rfl

/-- Both systems grow to the same outline, and it is within the kind. -/
theorem growTo_eq (settings : Settings) (count : Nat) (seed : UInt64) :
    (growTo a settings count seed).Within P ∧
      growTo a settings count seed = growTo b settings count seed := by
  have new := within_initial agree settings.lanes seed
  by_cases below : count < settings.parallelThreshold
  · rw [growTo_of_lt below, growTo_of_lt below, ← initial_eq agree]
    exact ⟨new.advance agree count, new.advance_eq agree count⟩
  · have beyond := Nat.not_lt.mp below
    have primed := (new.advance agree settings.primingSteps).spread
    rw [growTo_of_le beyond, growTo_of_le beyond, ← initial_eq agree, ← new.advance_eq agree,
      ← primed.advance_eq agree]
    exact ⟨primed.advance agree _, rfl⟩

/-- Every operation keeps within the kind and comes to the same in both systems. -/
theorem Within.perform_eq (within : outline.Within P) (settings : Settings) (fresh : UInt64)
    (operation : Growth.Operation) :
    (outline.perform a settings fresh operation).Within P ∧
      outline.perform a settings fresh operation = outline.perform b settings fresh operation := by
  cases operation with
  | step => exact ⟨within.advance agree 1, within.advance_eq agree 1⟩
  | grow count => exact ⟨within.advance agree count, within.advance_eq agree count⟩
  | growTo count => exact growTo_eq agree settings count _
  | restart | fork => exact ⟨within_initial agree _ _, initial_eq agree _ _⟩

end

end Outline

namespace Growth

/-- Whatever is done to both runs, no caller can tell them apart, and the random sources of their
lanes are in the same state, whichever fresh seeds are at hand. -/
structure InUnison (x y : Growth) : Prop where
  indistinguishable : Indistinguishable x y
  sources_eq : ∀ (operations : List Operation) (fresh fresh' : Nat → UInt64),
    (run fresh operations x).sources = (run fresh' operations y).sources

/-- Two runs with the same settings, of systems that agree on a kind of symbols, that are at the
same point. -/
structure Abreast (P : Symbol → Prop) (a b : LSystem) (settings : Settings) (x y : Growth) :
    Prop where
  sound_left : x.Sound
  sound_right : y.Sound
  system_left : x.system = a
  system_right : y.system = b
  settings_left : x.settings = settings
  settings_right : y.settings = settings
  within : x.outline.Within P
  outline_eq : x.outline = y.outline

variable {P : Symbol → Prop} {a b : LSystem} {settings : Settings} {seed : UInt64}

namespace Abreast

variable {x y : Growth}

theorem observe_eq (abreast : Abreast P a b settings x y) : x.observe = y.observe := by
  rw [abreast.sound_left.observe_eq, abreast.sound_right.observe_eq, abreast.outline_eq]

theorem sources_eq (abreast : Abreast P a b settings x y) : x.sources = y.sources := by
  rw [← abreast.sound_left.map_snd_parts, ← abreast.sound_right.map_snd_parts, abreast.outline_eq]

/-- An operation on both runs, whose fresh seeds play no part, leaves them at the same point. -/
theorem perform (agree : LSystem.AgreeOn P a b) (seeded : settings.seed = some seed)
    (abreast : Abreast P a b settings x y) (fresh fresh' : UInt64) (operation : Operation) :
    Abreast P a b settings (x.perform fresh operation).1 (y.perform fresh' operation).1 := by
  obtain ⟨within, equal⟩ := abreast.within.perform_eq agree settings fresh operation
  have left : (x.perform fresh operation).1.outline =
      x.outline.perform a settings fresh operation := by
    rw [abreast.sound_left.outline_perform, abreast.system_left, abreast.settings_left]
  have right : (y.perform fresh' operation).1.outline =
      x.outline.perform b settings fresh operation := by
    rw [abreast.sound_right.outline_perform, abreast.system_right, abreast.settings_right,
      ← abreast.outline_eq]
    exact Outline.perform_seeded seeded b x.outline fresh fresh' settings.initialCapacity operation
  refine
    { sound_left := abreast.sound_left.perform fresh operation
      sound_right := abreast.sound_right.perform fresh' operation
      system_left := (system_perform x fresh operation).trans abreast.system_left
      system_right := (system_perform y fresh' operation).trans abreast.system_right
      settings_left := (settings_perform x fresh operation).trans abreast.settings_left
      settings_right := (settings_perform y fresh' operation).trans abreast.settings_right
      within := ?_
      outline_eq := ?_ }
  · rw [left]
    exact within
  · rw [left, right, equal]

theorem inUnison (agree : LSystem.AgreeOn P a b) (seeded : settings.seed = some seed)
    (abreast : Abreast P a b settings x y) : InUnison x y where
  indistinguishable := ⟨abreast.observe_eq,
    trace_eq_of_related (perform agree seeded) observe_eq abreast⟩
  sources_eq operations fresh fresh' :=
    (run_related (perform agree seeded) abreast operations fresh fresh').sources_eq

end Abreast

/-- New runs of systems that agree, with the same seeded settings, go on in unison. -/
theorem exists_inUnison (agree : LSystem.AgreeOn P a b) (valid : settings.check = .ok ())
    (seeded : settings.seed = some seed) (fresh fresh' : UInt64) :
    ∃ x y, ofSystem a settings fresh = .ok x ∧ ofSystem b settings fresh' = .ok y ∧
      InUnison x y := by
  refine ⟨start a settings fresh, start b settings fresh', ofSystem_eq_ok_iff.mpr ⟨valid, rfl⟩,
    ofSystem_eq_ok_iff.mpr ⟨valid, rfl⟩, Abreast.inUnison agree seeded ?_⟩
  refine
    { sound_left := sound_start a valid fresh
      sound_right := sound_start b valid fresh'
      system_left := rfl
      system_right := rfl
      settings_left := rfl
      settings_right := rfl
      within := ?_
      outline_eq := ?_ }
  · rw [outline_start a valid]
    exact Outline.within_initial agree _ _
  · rw [outline_start a valid, outline_start b valid, seeded]
    exact Outline.initial_eq agree _ _

end Growth

end Lindenmayer
