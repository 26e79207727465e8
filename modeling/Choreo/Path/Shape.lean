import Choreo.Path.Polyline
import Choreo.Path.Bezier

/-!
# Paths

A path that a script names is of one of the two shapes.
-/

namespace Choreo

inductive Path
  | polyline (p : Polyline)
  | bezier (b : Bezier)
  deriving DecidableEq

namespace Path

def point : Path → Curve
  | polyline p => p.point
  | bezier b => b.point

def fault? : Path → Option PathFault
  | polyline p => p.fault?
  | bezier b => b.fault?

end Path

end Choreo
