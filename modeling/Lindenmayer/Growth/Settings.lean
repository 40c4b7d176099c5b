import Lindenmayer.Error

/-!
# Run settings

How a run is spread over lanes, when it is, and which seed it draws from.
-/

namespace Lindenmayer

/-- The options of a run. -/
structure Settings where
  /-- How many lanes the generation is spread over. -/
  lanes : Nat
  /-- The capacity each lane buffer starts with. -/
  initialCapacity : Nat
  /-- Growth by at least this many steps is spread over the lanes. -/
  parallelThreshold : Nat
  /-- How many steps the first lane takes alone before the generation is spread. -/
  primingSteps : Nat
  /-- Whether the samplers are compiled to tables. -/
  tabulate : Bool
  /-- The seed of the run; without one, each restart is given a fresh seed. -/
  seed : Option UInt64
  deriving DecidableEq

namespace Settings

/-- One lane, and the usual values of everything else. -/
def default : Settings := ⟨1, 32, 15, 10, false, none⟩

/-- The first reason why settings are unusable. -/
def fault? (settings : Settings) : Option SettingsFault :=
  if settings.lanes = 0 then
    some .noLanes
  else if settings.initialCapacity = 0 then
    some .noCapacity
  else if settings.parallelThreshold < settings.primingSteps then
    some (.primingPastThreshold settings.primingSteps settings.parallelThreshold)
  else
    none

/-- Refuses unusable settings. -/
def check (settings : Settings) : Except Error Unit :=
  match settings.fault? with
  | some fault => .error (.invalidSettings fault)
  | none => .ok ()

end Settings

end Lindenmayer
