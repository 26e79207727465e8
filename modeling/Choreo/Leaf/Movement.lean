import Choreo.Fault
import Choreo.Moment

/-!
# Waiting, moving and jumping

Each action keeps its own progress and is over by that alone. `init` checks the parameters and
derives constants, `start` resets the progress, and `update` takes one tick and yields what is
written into the intentions.
-/

namespace Choreo

/-- Idles for a time and writes nothing. -/
structure Wait where
  duration : Single
  elapsed : Single := 0
  deriving DecidableEq

namespace Wait

def init (a : Wait) : Except Fault Wait := do
  Fault.requireFinite "duration" a.duration
  pure a

def start (a : Wait) : Wait := { a with elapsed := 0 }

def update (m : Moment) (a : Wait) : Wait :=
  if m.hasDuration then { a with elapsed := a.elapsed + m.step } else a

def isOver (a : Wait) : Bool := a.duration ≤ a.elapsed + Moment.slack

end Wait

/-- Moves along a vector at a given speed. The way covered is counted along the vector, and the last
step is shortened so that it ends on target. -/
structure MoveBy where
  vector : Planar
  speed : Single
  direction : Planar := .zero
  distance : Single := 0
  travelled : Single := 0
  deriving DecidableEq

namespace MoveBy

/-- A rest this short is covered in the current step. -/
def arrival : Single := 1e-4

/-- A vector too short to have a direction takes no time. -/
def init (w : Surroundings) (a : MoveBy) : Except Fault MoveBy := do
  Fault.require w .move
  Fault.requirePositive "speed" a.speed
  if !a.vector.isFinite then throw (.invalidParameter "vector" .finite)
  let direction := a.vector.normalizeOrZero
  pure { a with
    direction := direction
    distance := if direction == .zero then 0 else a.vector.length }

def start (a : MoveBy) : MoveBy := { a with travelled := 0 }

def remaining (a : MoveBy) : Single := (a.distance - a.travelled).greater 0

def isOver (a : MoveBy) : Bool := a.distance ≤ a.travelled

/-- A step without duration completes the move at once. -/
def update (m : Moment) (a : MoveBy) : MoveBy × List Write :=
  let remaining := a.remaining
  if remaining ≤ 0 then (a, [.velocity .zero])
  else if !m.hasDuration then ({ a with travelled := a.distance }, [.velocity .zero])
  else
    let step := a.speed * m.step
    if remaining ≤ step + arrival then
      ({ a with travelled := a.distance }, [.velocity (a.direction * (remaining / m.step))])
    else
      ({ a with travelled := a.travelled + step }, [.velocity (a.direction * (step / m.step))])

end MoveBy

/-- Sets a signed ground speed and is over at once. The speed stays until something else sets it. -/
structure Walk where
  speed : Single
  deriving DecidableEq

namespace Walk

def init (w : Surroundings) (a : Walk) : Except Fault Walk := do
  Fault.require w .move
  Fault.requireFinite "speed" a.speed
  pure a

end Walk

/-- Requests one jump. -/
structure Jump where
  impulse : Single
  requested : Bool := false
  deriving DecidableEq

namespace Jump

def init (w : Surroundings) (a : Jump) : Except Fault Jump := do
  Fault.require w .move
  Fault.requireFinite "impulse" a.impulse
  pure a

def start (a : Jump) : Jump := { a with requested := false }

def update (a : Jump) : Jump × List Write :=
  if a.requested then (a, []) else ({ a with requested := true }, [.jump a.impulse])

end Jump

end Choreo
