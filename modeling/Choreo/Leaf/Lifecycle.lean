import Choreo.Leaf.Movement
import Choreo.Leaf.Following
import Choreo.Leaf.Shooting

/-!
# Leaves

The ten kinds of action behind one interface. A leaf is a pure function of its own state, the moment
and the surroundings; what it does to the world is the list of its writes.
-/

namespace Choreo

inductive Leaf
  | wait (a : Wait)
  | moveBy (a : MoveBy)
  | followPath (a : FollowPath)
  | followBezier (a : FollowBezier)
  | jump (a : Jump)
  | singleShot (a : SingleShot)
  | barrage (a : Barrage)
  | attack (a : Attack)
  | lob (a : Lob)
  | walk (a : Walk)
  deriving DecidableEq

namespace Leaf

def kind : Leaf → Kind
  | wait _ => .wait
  | moveBy _ => .moveBy
  | followPath _ => .followPath
  | followBezier _ => .followBezier
  | jump _ => .jump
  | singleShot _ => .singleShot
  | barrage _ => .barrage
  | attack _ => .attack
  | lob _ => .lob
  | walk _ => .walk

/-- Checks the parameters against the entity and derives constants. -/
def init (w : Surroundings) : Leaf → Except Fault Leaf
  | wait a => wait <$> a.init
  | moveBy a => moveBy <$> a.init w
  | followPath a => followPath <$> a.init w
  | followBezier a => followBezier <$> a.init w
  | jump a => jump <$> a.init w
  | singleShot a => singleShot <$> a.init w
  | barrage a => barrage <$> a.init w
  | attack a => attack <$> a.init w
  | lob a => lob <$> a.init w
  | walk a => walk <$> a.init w

/-- Resets the progress. Only a walk writes already here. -/
def start (w : Surroundings) : Leaf → Leaf × List Write
  | wait a => (wait a.start, [])
  | moveBy a => (moveBy a.start, [])
  | followPath a => (followPath (a.start w), [])
  | followBezier a => (followBezier (a.start w), [])
  | jump a => (jump a.start, [])
  | singleShot a => (singleShot a.start, [])
  | barrage a => (barrage a.start, [])
  | attack a => (attack a.start, [])
  | lob a => (lob a.start, [])
  | walk a => (walk a, [.groundSpeed a.speed])

/-- Takes one tick. -/
def update (m : Moment) (w : Surroundings) : Leaf → Leaf × List Write
  | wait a => (wait (a.update m), [])
  | moveBy a => (a.update m).map moveBy id
  | followPath a => (a.update m w).map followPath id
  | followBezier a => (a.update m w).map followBezier id
  | jump a => a.update.map jump id
  | singleShot a => (a.update w).map singleShot id
  | barrage a => (a.update m w).map barrage id
  | attack a => (a.update w).map attack id
  | lob a => (a.update w).map lob id
  | walk a => (walk a, [])

def isOver : Leaf → Bool
  | wait a => a.isOver
  | moveBy a => a.isOver
  | followPath a => a.isOver
  | followBezier a => a.isOver
  | jump a => a.requested
  | singleShot a => a.fired
  | barrage a => a.isOver
  | attack a => a.done
  | lob a => a.done
  | walk _ => true

/-- Whether the leaf drives the velocity while it runs. -/
def steersVelocity : Leaf → Bool
  | moveBy _ | followPath _ | followBezier _ => true
  | _ => false

/-- Clears what the leaf was driving continuously. -/
def finish (l : Leaf) : List Write := if l.steersVelocity then [.velocity .zero] else []

end Leaf

end Choreo
