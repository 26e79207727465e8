import Choreo.Path.Curve

/-!
# Bezier chains

Cubic curves one after another. Each takes an equal share of the parameter and none is
re-parametrised by its length, so a follower at a constant rate spends the same time on each.
-/

namespace Choreo

structure Cubic where
  start : Planar
  startHandle : Planar
  endHandle : Planar
  finish : Planar
  deriving DecidableEq

namespace Cubic

/-- A straight segment, with its handles at the thirds so that the parameter moves evenly. -/
def line (start finish : Planar) : Cubic :=
  ⟨start, start.lerp finish (1 / 3), start.lerp finish (2 / 3), finish⟩

def controls (c : Cubic) : List Planar := [c.start, c.startHandle, c.endHandle, c.finish]

def point (c : Cubic) (t : Single) : Planar :=
  let t := t.clampUnit
  let u := 1 - t
  c.start * (u * u * u) + c.startHandle * (3 * u * u * t) + c.endHandle * (3 * u * t * t) +
    c.finish * (t * t * t)

end Cubic

structure Bezier where
  curves : List Cubic
  deriving DecidableEq

namespace Bezier

def controls (b : Bezier) : List Planar := b.curves.flatMap Cubic.controls

def point (b : Bezier) (t : Single) : Planar :=
  let (index, within) := Curve.piece t b.curves.length
  match b.curves[index]? with
  | some curve => curve.point within
  | none => .zero

def fault? (b : Bezier) : Option PathFault :=
  if b.curves.isEmpty then some .noCurves else PathFault.ofPoints b.controls

end Bezier

end Choreo
