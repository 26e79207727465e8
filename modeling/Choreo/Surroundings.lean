import Choreo.Intent

/-!
# Surroundings

All that a node may learn about its entity. The contents of the intention records are not part of
it: a script writes them and never reads them back.
-/

namespace Choreo

structure Surroundings where
  position : Planar := .zero
  forward : Planar := .right
  /-- Where the live target is, if there is one. -/
  target : Option Planar := none
  /-- The velocity of the scrolling frame, which path followers add to their own. -/
  scroll : Planar := .zero
  active : Bool := true
  has : Capability → Bool := fun _ => true

/-- Where a directional action takes its heading from. -/
inductive Aim
  | forward
  | target
  deriving DecidableEq, Inhabited

namespace Aim

def name : Aim → String
  | .forward => "forward"
  | .target => "target"

/-- Towards the live target, or along the entity's forward where there is none or it is too close to
have a direction. -/
def direction (w : Surroundings) : Aim → Planar
  | .forward => w.forward.normalize?.getD .right
  | .target =>
    (w.target.bind fun target => (target - w.position).normalize?).getD
      (w.forward.normalize?.getD .right)

end Aim

end Choreo
