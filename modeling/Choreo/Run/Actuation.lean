import Choreo.Run.Scene
import Choreo.Run.Settings

/-!
# Actuation

An entity of a headless run carries its intentions out once per tick. Velocity and ground speed stay
set until the script changes them; what is asked for once is done and cleared.
-/

namespace Choreo

/-- What an entity did in a tick. -/
structure Record where
  tick : UInt64
  position : Planar := .zero
  velocity : Planar := .zero
  shots : List Planar := []
  toss : Option (Planar × Single) := none
  strike : Option Planar := none
  jump : Option Single := none
  holding : Bool := false

namespace Record

/-- Whether the entity moved or did anything. -/
def isEventful (r : Record) : Bool :=
  r.velocity != .zero || !r.shots.isEmpty || r.toss.isSome || r.strike.isSome || r.jump.isSome ||
    r.holding

/-- What the entity did not do is not written. -/
instance : Encode Record :=
  ⟨fun r => .object <|
    [("tick", .natural r.tick.toNat), ("position", encode r.position),
      ("velocity", encode r.velocity)] ++
    (if r.shots.isEmpty then [] else [("shots", encode r.shots)]) ++
    (r.toss.map fun (d, speed) => ("throw", Value.list [encode d, encode speed])).toList ++
    (r.strike.map fun d => ("melee", encode d)).toList ++
    (r.jump.map fun impulse => ("jump", encode impulse)).toList ++
    (if r.holding then [("holding_fire", .flag true)] else [])⟩

end Record

namespace Entity

/-- An entity with cleared intentions, facing along a unit vector. -/
def spawn (s : Settings) : Entity :=
  { position := s.position
    forward := s.forward.normalize?.getD .right
    target := s.target
    scroll := s.scroll
    intentions := .ofCapabilities s.capabilities }

/-- How fast an entity moves: by its velocity, and along the ground. -/
def velocity (e : Entity) : Planar :=
  match e.intentions.movement with
  | some movement => movement.velocity + e.forward * movement.groundSpeed
  | none => .zero

/-- Where an entity is after a tick. -/
def moved (m : Moment) (e : Entity) : Planar :=
  if e.intentions.movement.isSome && m.hasDuration then e.position + e.velocity * m.step
  else e.position

/-- Carries the intentions out and clears what was asked for once. -/
def actuate (m : Moment) (e : Entity) : Record × Entity :=
  let i := e.intentions
  let position := e.moved m
  ({ tick := m.tick
     position := position
     velocity := e.velocity
     shots := ((i.fire.bind (·.takeOnce.1)).toList) ++ (i.fire.map (·.directions)).getD []
     toss := i.throw.bind (·.take.1)
     strike := i.melee.bind (·.take.1)
     jump := i.movement.bind (·.takeJump.1)
     holding := (i.fire.map (·.hold)).getD false },
    { e with
      position := position
      intentions :=
        { movement := i.movement.map (·.takeJump.2)
          fire := i.fire.map (·.takeOnce.2.drain.2)
          throw := i.throw.map (·.take.2)
          melee := i.melee.map (·.take.2) } })

end Entity

/-- A scene before its first tick, with the script that will run in it. -/
def Scene.prepare (s : Settings) (script : Script) : Scene :=
  { moment := ⟨0, s.step⟩, entity := .spawn s, driver := { default := some script } }

end Choreo
