import Choreo.Proofs.Lifetime
import Choreo.Proofs.Node.Visit
import Choreo.Script

/-!
# Durations

How many ticks a script takes is told by its tree and by the moments that it is fed, without running
it: the children of a sequence take their time one after another, those of a parallel at once, and
each composite one more tick to notice that nothing is left to do. Only a leaf has to be run, and
what its entity is like makes no difference to that.
-/

namespace Choreo

/-- The number of updates after its start until a leaf is over. -/
noncomputable def Leaf.time (a : Leaf) (s : Stream' Moment) : ℕ∞ :=
  lifetime isOver (fun m a => (a.update m {}).1) s (a.start {}).1

namespace Node

mutual

/-- How long an initialised node takes from its start. -/
noncomputable def time : Node → Stream' Moment → ℕ∞
  | leaf h a, s => if h.able then a.time s else 0
  | sequence h children _, s => if h.able then 1 + timeInTurn children s else 0
  | parallel h children _, s =>
    if h.able && !children.isEmpty then 1 + timeAtOnce children s else 0
  | repeating h _ _, _ => if h.able then ⊤ else 0

/-- One after another, each from where the one before it has left the stream. -/
noncomputable def timeInTurn : List Node → Stream' Moment → ℕ∞
  | [], _ => 0
  | n :: rest, s => n.time s + timeInTurn rest (s.drop (n.time s).toNat)

noncomputable def timeAtOnce : List Node → Stream' Moment → ℕ∞
  | [], _ => 0
  | n :: rest, s => max (n.time s) (timeAtOnce rest s)

end

end Node

/-- How long an initialised script takes. The composites of a flat script take no time. -/
noncomputable def Script.time : Script → Stream' Moment → ℕ∞
  | tree root, s => root.time s
  | flat actions _, s => 1 + Node.timeInTurn (actions.filter (!·.isComposite)) s

/-! ### A leaf takes the same time everywhere -/

namespace Leaf

/-- A leaf without what it remembers of places. -/
def unplaced : Leaf → Leaf
  | followPath a => followPath { a with follower := { t := a.follower.t } }
  | followBezier a => followBezier { a with follower := { t := a.follower.t } }
  | a => a

theorem isOver_unplaced (a : Leaf) : a.unplaced.isOver = a.isOver := by
  cases a <;> rfl

theorem start_unplaced (w : Surroundings) (a : Leaf) :
    (a.start w).1.unplaced = (a.start {}).1.unplaced := by
  cases a <;> rfl

private theorem followPath_update_unplaced (m : Moment) (w : Surroundings) (a : FollowPath) :
    ((followPath a).update m w).1.unplaced =
      ((followPath a).unplaced.update m {}).1.unplaced := by
  have hfinished : Follower.isFinished { t := a.follower.t } = a.follower.isFinished := rfl
  by_cases hover : a.follower.isFinished = true
  · simp [unplaced, update, FollowPath.update, hfinished, hover]
  · by_cases hduration : m.hasDuration = true
    · by_cases hrate :
          Curve.speed a.path.point a.follower.t Curve.defaultStep ≤ FollowPath.leastSpeed <;>
        simp [unplaced, update, FollowPath.update, hfinished, hover, hduration, hrate,
          Follower.snapToEnd, Follower.advance]
    · simp [unplaced, update, FollowPath.update, hfinished, hover, hduration, Follower.snapToEnd]

private theorem followBezier_update_unplaced (m : Moment) (w : Surroundings) (a : FollowBezier) :
    ((followBezier a).update m w).1.unplaced =
      ((followBezier a).unplaced.update m {}).1.unplaced := by
  have hfinished : Follower.isFinished { t := a.follower.t } = a.follower.isFinished := rfl
  by_cases hover : a.follower.isFinished = true
  · simp [unplaced, update, FollowBezier.update, hfinished, hover]
  · by_cases hduration : m.hasDuration = true
    · simp only [unplaced, update, FollowBezier.update, FollowBezier.curveCount, hfinished, hover,
        hduration, Follower.advance]
      rfl
    · simp [unplaced, update, FollowBezier.update, hfinished, hover, hduration,
        Follower.snapToEnd]

theorem update_unplaced (m : Moment) (w w' : Surroundings) {a b : Leaf}
    (h : a.unplaced = b.unplaced) :
    (a.update m w).1.unplaced = (b.update m w').1.unplaced := by
  have hplain : ∀ w : Surroundings, ∀ a : Leaf,
      (a.update m w).1.unplaced = (a.unplaced.update m {}).1.unplaced := by
    intro w a
    cases a with
    | followPath a => exact followPath_update_unplaced m w a
    | followBezier a => exact followBezier_update_unplaced m w a
    | singleShot a => by_cases hfired : a.fired = true <;>
        simp [unplaced, update, SingleShot.update, hfired]
    | barrage a => by_cases hover : a.isOver = true <;>
        simp [unplaced, update, Barrage.update, hover]
    | attack a => by_cases hdone : a.done = true <;> simp [unplaced, update, Attack.update, hdone]
    | lob a => by_cases hdone : a.done = true <;> simp [unplaced, update, Lob.update, hdone]
    | _ => rfl
  rw [hplain w a, hplain w' b, h]

end Leaf

end Choreo
