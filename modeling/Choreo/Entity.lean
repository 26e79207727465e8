import Choreo.Driver

/-!
# Entities

An entity shows its surroundings to a script and takes the script's effects in: writes go into its
intentions, and what happened becomes events of the current tick.
-/

namespace Choreo

structure Entity where
  position : Planar := .zero
  forward : Planar := .right
  target : Option Planar := none
  scroll : Planar := .zero
  active : Bool := true
  intentions : Intentions := .all

namespace Entity

def surroundings (e : Entity) : Surroundings :=
  { position := e.position
    forward := e.forward
    target := e.target
    scroll := e.scroll
    active := e.active
    has := e.intentions.has }

def absorb (e : Entity) (effects : List Effect) : Entity :=
  { e with intentions := Write.applyAll e.intentions (Effect.writes effects) }

/-- The events of a tick. -/
def events (m : Moment) (effects : List Effect) : List Event :=
  (Effect.happenings effects).map (·.at m.tick)

end Entity

end Choreo
