import Choreo.Run.Actuation

/-!
# Trajectories

A run is the activation of a script followed by ticks, until the script no longer runs or the ticks
are used up. All that a run prints is a view of its trajectory.
-/

namespace Choreo

/-- What happens in one tick of a run. -/
structure Frame where
  events : List Event
  record : Record
  /-- How the script stands after the tick. -/
  status : Status

structure Trajectory where
  /-- What happens while the script is activated, at tick zero. -/
  opening : List Event
  frames : List Frame

namespace Scene

/-- Makes the entity inactive if its time has come. -/
def curtail (deactivation : Option UInt64) (s : Scene) : Scene :=
  if deactivation = some s.moment.tick then { s with entity := { s.entity with active := false } }
  else s

/-- One tick: the driver goes first, and then the entity carries its intentions out. -/
def frame (s : Scene) : Frame × Scene :=
  let (s, events) := s.call .tick
  let (record, entity) := s.entity.actuate s.moment
  (⟨events, record, s.driver.status⟩, { s with entity := entity })

/-- The ticks of a run, the last of which is the first after which the script does not run. -/
def frames (deactivation : Option UInt64) : (ticks : Nat) → Scene → List Frame
  | 0, _ => []
  | ticks + 1, s =>
    let (frame, s) := (s.later.curtail deactivation).frame
    frame :: if frame.status = .running then frames deactivation ticks s else []

end Scene

namespace Settings

/-- Runs a script. -/
def run (s : Settings) (script : Script) : Trajectory :=
  let (scene, opening) := (Scene.prepare s script).call (.activate none)
  ⟨opening, scene.frames s.deactivation s.ticks.toNat⟩

/-- What is wrong with a script for the entity of a run. -/
def check (s : Settings) (script : Script) : Report :=
  ((Scene.prepare s script).call (.activate none)).1.driver.report

end Settings

end Choreo
