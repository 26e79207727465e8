import Choreo.Entity

/-!
# Scenes

An entity together with its driver and the current moment. Calls to the driver see the entity as it
is, and the entity takes in their effects.
-/

namespace Choreo

structure Scene where
  moment : Moment
  entity : Entity
  driver : Driver

namespace Scene

/-- Takes in what a driver did, and tells the events. -/
def settle (s : Scene) (driver : Driver) (effects : List Effect) : Scene × List Event :=
  ({ s with driver := driver, entity := s.entity.absorb effects }, Entity.events s.moment effects)

def call (s : Scene) (c : Driver.Call) : Scene × List Event :=
  let (driver, effects) := s.driver.call s.moment s.entity.surroundings c
  s.settle driver effects

/-- The scene one tick later, before anything happens in it. -/
def later (s : Scene) : Scene := { s with moment := s.moment.next }

end Scene

end Choreo
