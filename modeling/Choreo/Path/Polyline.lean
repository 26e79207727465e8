import Choreo.Path.Curve

/-!
# Polylines

Straight segments through given points. Each segment takes an equal share of the parameter, whatever
its length.
-/

namespace Choreo

structure Polyline where
  points : List Planar
  deriving DecidableEq

namespace Polyline

def segments (p : Polyline) : Nat := p.points.length - 1

def point (p : Polyline) (t : Single) : Planar :=
  match p.points with
  | [] => .zero
  | [only] => only
  | points =>
    let (index, within) := Curve.piece t (points.length - 1)
    (points.getD index .zero).lerp (points.getD (index + 1) .zero) within

/-- The sum of the lengths of the segments. It starts at minus zero, the neutral element of
addition. -/
def length (p : Polyline) : Single :=
  (List.zipWith Planar.distance p.points (p.points.drop 1)).foldl (· + ·) (-0.0)

def fault? (p : Polyline) : Option PathFault :=
  if p.points.length < 2 then some (.tooFewPoints p.points.length) else PathFault.ofPoints p.points

end Polyline

end Choreo
