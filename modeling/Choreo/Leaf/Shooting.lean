import Choreo.Fault
import Choreo.Moment

/-!
# Shooting, throwing and striking

These actions only ask for an attack. Its heading is that of the aim at the moment of the request,
turned by the authored angle.
-/

namespace Choreo

/-- Fires one bullet. -/
structure SingleShot where
  angle : Single := 0
  aim : Aim := .forward
  fired : Bool := false
  deriving DecidableEq

namespace SingleShot

def init (w : Surroundings) (a : SingleShot) : Except Fault SingleShot := do
  Fault.require w .fire
  Fault.requireFinite "angle" a.angle
  pure a

def start (a : SingleShot) : SingleShot := { a with fired := false }

def update (w : Surroundings) (a : SingleShot) : SingleShot × List Write :=
  if a.fired then (a, [])
  else ({ a with fired := true }, [.shot ((a.aim.direction w).rotate a.angle)])

end SingleShot

/-- Spreads bullets evenly between two angles and over a time, both ends included. The first bullet
leaves with the first update; each update fires every bullet that has come due. Without a positive
duration they all leave at once. -/
structure Barrage where
  angleStart : Single
  angleEnd : Single
  bulletCount : UInt32
  duration : Single := 0
  aim : Aim := .forward
  elapsed : Single := 0
  fired : Nat := 0
  deriving DecidableEq

namespace Barrage

def count (a : Barrage) : Nat := a.bulletCount.toNat

def init (w : Surroundings) (a : Barrage) : Except Fault Barrage := do
  Fault.require w .fire
  Fault.requireFinite "angle_start" a.angleStart
  Fault.requireFinite "angle_end" a.angleEnd
  Fault.requireFinite "duration" a.duration
  pure a

def start (a : Barrage) : Barrage := { a with elapsed := 0, fired := 0 }

/-- How many bullets should have left after so many seconds. The number of whole intervals is cut to
the number there are before it becomes a count. -/
def shotsDue (a : Barrage) (elapsed : Single) : Nat :=
  if a.count = 0 then 0
  else if a.duration ≤ 0 ∨ a.count = 1 then a.count
  else
    let intervals := Single.ofCount (a.count - 1)
    let interval := a.duration / intervals
    (((elapsed + Moment.slack) / interval).lesser intervals).toUInt32.toNat + 1

/-- The angle of a bullet, in degrees off the aim. -/
def angleOf (a : Barrage) (index : Nat) : Single :=
  if a.count ≤ 1 then a.angleStart
  else
    let fraction := Single.ofCount index / Single.ofCount (a.count - 1)
    a.angleStart + (a.angleEnd - a.angleStart) * fraction

def isOver (a : Barrage) : Bool := a.count ≤ a.fired

/-- The bullets from the next one up to the `due`-th. -/
def volley (a : Barrage) (w : Surroundings) (due : Nat) : List Write :=
  let heading := a.aim.direction w
  (List.range' a.fired (due - a.fired)).map fun index => .bullet (heading.rotate (a.angleOf index))

/-- A step without duration fires the rest of a timed barrage. -/
def update (m : Moment) (w : Surroundings) (a : Barrage) : Barrage × List Write :=
  if a.isOver then (a, [])
  else
    let due := if 0 < a.duration ∧ !m.hasDuration then a.count else a.shotsDue a.elapsed
    ({ a with
        fired := max a.fired due
        elapsed := if m.hasDuration then a.elapsed + m.step else a.elapsed },
      a.volley w due)

end Barrage

/-- Asks for one melee attack. -/
structure Attack where
  aim : Aim := .forward
  angle : Single := 0
  done : Bool := false
  deriving DecidableEq

namespace Attack

def init (w : Surroundings) (a : Attack) : Except Fault Attack := do
  Fault.require w .melee
  Fault.requireFinite "angle" a.angle
  pure a

def start (a : Attack) : Attack := { a with done := false }

def update (w : Surroundings) (a : Attack) : Attack × List Write :=
  if a.done then (a, [])
  else ({ a with done := true }, [.strike ((a.aim.direction w).rotate a.angle)])

end Attack

/-- Asks for one throw. -/
structure Lob where
  aim : Aim := .forward
  angle : Single := 0
  speed : Single
  done : Bool := false
  deriving DecidableEq

namespace Lob

def init (w : Surroundings) (a : Lob) : Except Fault Lob := do
  Fault.require w .throw
  Fault.requireFinite "angle" a.angle
  Fault.requirePositive "speed" a.speed
  pure a

def start (a : Lob) : Lob := { a with done := false }

def update (w : Surroundings) (a : Lob) : Lob × List Write :=
  if a.done then (a, [])
  else ({ a with done := true }, [.toss ((a.aim.direction w).rotate a.angle) a.speed])

end Lob

end Choreo
