import Choreo.Number.Binary

/-!
# Moments

The simulation advances in ticks of a given length. A node sees the current tick only as the
`Moment` it is updated at.
-/

namespace Choreo

structure Moment where
  tick : UInt64
  step : Single
  deriving DecidableEq

namespace Moment

/-- The tick after this one, equally long. The count wraps around. -/
def next (m : Moment) : Moment := { m with tick := m.tick + 1 }

/-- A step that is zero, negative or not finite takes no time, and nothing may be divided by it. -/
def hasDuration (m : Moment) : Bool := m.step.isPositiveFinite

/-- Slack for comparing a sum of steps with an authored duration: sixty steps of a sixtieth do not
add up to one. -/
def slack : Single := 1e-4

end Moment

end Choreo
