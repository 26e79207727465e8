import Choreo.Planar

/-!
# Intentions

A script steers its entity only through intention records: plain data that an actuator reads and
clears once per tick. An entity carries a record for each of its capabilities. What a script does to
the records is a list of `Write`s; one that addresses a record the entity lacks is lost.
-/

namespace Choreo

inductive Capability
  | move
  | fire
  | throw
  | melee
  deriving DecidableEq

namespace Capability

def all : List Capability := [.move, .fire, .throw, .melee]

def name : Capability → String
  | .move => "move"
  | .fire => "fire"
  | .throw => "throw"
  | .melee => "melee"

end Capability

/-- How to move: flyers follow the velocity, walkers the ground speed and the jump. -/
structure Motion where
  velocity : Planar := .zero
  groundSpeed : Single := 0
  jumpImpulse : Single := 0
  deriving DecidableEq

/-- What to shoot. `hold` and `once` shoot along `aim`; a pattern lists each bullet's heading. -/
structure Gunfire where
  hold : Bool := false
  once : Bool := false
  aim : Planar := .zero
  directions : List Planar := []
  deriving DecidableEq

structure Toss where
  start : Bool := false
  direction : Planar := .zero
  speed : Single := 0
  deriving DecidableEq

structure Strike where
  start : Bool := false
  direction : Planar := .zero
  deriving DecidableEq

/-- An impulse of zero is no jump. -/
def Motion.takeJump (m : Motion) : Option Single × Motion :=
  (if m.jumpImpulse != 0 then some m.jumpImpulse else none, { m with jumpImpulse := 0 })

def Gunfire.requestOnce (g : Gunfire) (aim : Planar) : Gunfire := { g with once := true, aim := aim }

def Gunfire.push (g : Gunfire) (direction : Planar) : Gunfire :=
  { g with directions := g.directions ++ [direction] }

def Gunfire.takeOnce (g : Gunfire) : Option Planar × Gunfire :=
  (if g.once then some g.aim else none, { g with once := false })

def Gunfire.drain (g : Gunfire) : List Planar × Gunfire := (g.directions, { g with directions := [] })

def Toss.request (_ : Toss) (direction : Planar) (speed : Single) : Toss := ⟨true, direction, speed⟩

def Toss.take (t : Toss) : Option (Planar × Single) × Toss :=
  (if t.start then some (t.direction, t.speed) else none, { t with start := false })

def Strike.request (_ : Strike) (direction : Planar) : Strike := ⟨true, direction⟩

def Strike.take (s : Strike) : Option Planar × Strike :=
  (if s.start then some s.direction else none, { s with start := false })

structure Intentions where
  movement : Option Motion := none
  fire : Option Gunfire := none
  throw : Option Toss := none
  melee : Option Strike := none
  deriving DecidableEq

namespace Intentions

def has (i : Intentions) : Capability → Bool
  | .move => i.movement.isSome
  | .fire => i.fire.isSome
  | .throw => i.throw.isSome
  | .melee => i.melee.isSome

/-- A cleared record for each of the capabilities. -/
def ofCapabilities (capabilities : List Capability) : Intentions :=
  { movement := if .move ∈ capabilities then some {} else none
    fire := if .fire ∈ capabilities then some {} else none
    throw := if .throw ∈ capabilities then some {} else none
    melee := if .melee ∈ capabilities then some {} else none }

def all : Intentions := ofCapabilities Capability.all

/-- Clears each record that is there. -/
def reset (i : Intentions) : Intentions :=
  { movement := i.movement.map fun _ => {}
    fire := i.fire.map fun _ => {}
    throw := i.throw.map fun _ => {}
    melee := i.melee.map fun _ => {} }

end Intentions

/-- What a script can do to the intentions of its entity. -/
inductive Write
  | velocity (v : Planar)
  | groundSpeed (speed : Single)
  | jump (impulse : Single)
  | shot (aim : Planar)
  | bullet (direction : Planar)
  | toss (direction : Planar) (speed : Single)
  | strike (direction : Planar)
  deriving DecidableEq

namespace Write

def apply (i : Intentions) : Write → Intentions
  | velocity v => { i with movement := i.movement.map ({ · with velocity := v }) }
  | groundSpeed s => { i with movement := i.movement.map ({ · with groundSpeed := s }) }
  | jump impulse => { i with movement := i.movement.map ({ · with jumpImpulse := impulse }) }
  | shot aim => { i with fire := i.fire.map (·.requestOnce aim) }
  | bullet direction => { i with fire := i.fire.map (·.push direction) }
  | toss direction speed => { i with throw := i.throw.map (·.request direction speed) }
  | strike direction => { i with melee := i.melee.map (·.request direction) }

def applyAll (i : Intentions) (writes : List Write) : Intentions := writes.foldl apply i

end Write

end Choreo
