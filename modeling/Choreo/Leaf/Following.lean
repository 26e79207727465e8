import Choreo.Fault
import Choreo.Moment
import Choreo.Path.Shape

/-!
# Following a path

A follower runs open-loop: where the entity stands when it starts becomes the origin of the path, the
point to reach at parameter `t` is `origin + curve t + offset`, and the velocity of a tick is the
change of that point over the tick. Where the entity really is plays no further part.
-/

namespace Choreo

structure Follower where
  t : Single := 0
  origin : Planar := .zero
  last : Planar := .zero
  deriving DecidableEq

namespace Follower

/-- A parameter this close to the end is the end. -/
def endSnap : Single := 1e-4

/-- An offset in the frame of the tangent: along it, and to its left. -/
def localOffset (c : Curve) (t : Single) (offset : Planar) : Planar :=
  if offset == .zero then .zero
  else
    let tangent := (c.tangent? t Curve.defaultStep).getD .right
    tangent * offset.x + tangent.perp * offset.y

def start (c : Curve) (offset position : Planar) : Follower :=
  { t := 0, origin := position - (c 0 + localOffset c 0 offset), last := position }

def target (f : Follower) (c : Curve) (offset : Planar) (t : Single) : Planar :=
  f.origin + c t + localOffset c t offset

/-- Moves on to a parameter, and the velocity that gets there in `step`. -/
def advance (f : Follower) (c : Curve) (offset : Planar) (t step : Single) : Follower × Planar :=
  let t := if 1 - t ≤ endSnap then 1 else t.lesser 1
  let next := f.target c offset t
  ({ f with t := t, last := next }, (next - f.last) / step)

def snapToEnd (f : Follower) : Follower := { f with t := 1 }

def isFinished (f : Follower) : Bool := 1 ≤ f.t

end Follower

/-- Follows a path at a constant world speed: the parameter's rate is the speed over an estimate of
how fast the parameter moves through the world. -/
structure FollowPath where
  path : Path
  speed : Single
  offset : Planar := .zero
  follower : Follower := {}
  deriving DecidableEq

namespace FollowPath

/-- A path on which the parameter moves no faster than this is degenerate, and left at once. -/
def leastSpeed : Single := 1e-6

def init (w : Surroundings) (a : FollowPath) : Except Fault FollowPath := do
  Fault.require w .move
  Fault.requirePositive "speed" a.speed
  Fault.requirePath a.path.fault?
  pure a

def start (w : Surroundings) (a : FollowPath) : FollowPath :=
  { a with follower := Follower.start a.path.point a.offset w.position }

def isOver (a : FollowPath) : Bool := a.follower.isFinished

def update (m : Moment) (w : Surroundings) (a : FollowPath) : FollowPath × List Write :=
  if a.follower.isFinished then (a, [.velocity .zero])
  else if !m.hasDuration then ({ a with follower := a.follower.snapToEnd }, [.velocity .zero])
  else
    let rate := Curve.speed a.path.point a.follower.t Curve.defaultStep
    if rate ≤ leastSpeed then ({ a with follower := a.follower.snapToEnd }, [.velocity .zero])
    else
      let t := a.follower.t + a.speed * m.step / rate
      let (follower, velocity) := a.follower.advance a.path.point a.offset t m.step
      ({ a with follower := follower }, [.velocity (velocity + w.scroll)])

end FollowPath

/-- Follows a chain of curves in a given time, each curve taking an equal share of it. -/
structure FollowBezier where
  path : Bezier
  duration : Single
  offset : Planar := .zero
  /-- Curves per second. -/
  curveSpeed : Single := 0
  follower : Follower := {}
  deriving DecidableEq

namespace FollowBezier

def curveCount (a : FollowBezier) : Single := Single.ofCount a.path.curves.length

def init (w : Surroundings) (a : FollowBezier) : Except Fault FollowBezier := do
  Fault.require w .move
  Fault.requirePositive "duration" a.duration
  Fault.requirePath a.path.fault?
  pure { a with curveSpeed := a.curveCount / a.duration }

def start (w : Surroundings) (a : FollowBezier) : FollowBezier :=
  { a with follower := Follower.start a.path.point a.offset w.position }

def isOver (a : FollowBezier) : Bool := a.follower.isFinished

def update (m : Moment) (w : Surroundings) (a : FollowBezier) : FollowBezier × List Write :=
  if a.follower.isFinished then (a, [.velocity .zero])
  else if !m.hasDuration then ({ a with follower := a.follower.snapToEnd }, [.velocity .zero])
  else
    let t := a.follower.t + a.curveSpeed * m.step / a.curveCount
    let (follower, velocity) := a.follower.advance a.path.point a.offset t m.step
    ({ a with follower := follower }, [.velocity (velocity + w.scroll)])

end FollowBezier

end Choreo
