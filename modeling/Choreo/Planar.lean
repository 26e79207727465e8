import Choreo.Number.Circle

/-!
# Vectors of the plane

Positions, velocities and headings are all vectors of the plane. The operations are written in the
order in which their roundings happen, so none of them may be rearranged.
-/

namespace Choreo

structure Planar where
  x : Single
  y : Single
  deriving DecidableEq

namespace Planar

def zero : Planar := ⟨0, 0⟩

def right : Planar := ⟨1, 0⟩

instance : Inhabited Planar := ⟨zero⟩

/-- Equality of numbers, not of their bits: a zero equals the other zero, and a vector with a part
that is not a number equals none. -/
instance : BEq Planar := ⟨fun a b => a.x == b.x && a.y == b.y⟩

instance : Add Planar := ⟨fun a b => ⟨a.x + b.x, a.y + b.y⟩⟩

instance : Sub Planar := ⟨fun a b => ⟨a.x - b.x, a.y - b.y⟩⟩

instance : Neg Planar := ⟨fun a => ⟨-a.x, -a.y⟩⟩

instance : HMul Planar Single Planar := ⟨fun a k => ⟨a.x * k, a.y * k⟩⟩

instance : HDiv Planar Single Planar := ⟨fun a k => ⟨a.x / k, a.y / k⟩⟩

def isFinite (a : Planar) : Bool := a.x.isFinite && a.y.isFinite

def dot (a b : Planar) : Single := a.x * b.x + a.y * b.y

def lengthSquared (a : Planar) : Single := a.dot a

def length (a : Planar) : Single := a.lengthSquared.sqrt

def distance (a b : Planar) : Single := (a - b).length

/-- A vector this short has no direction. -/
def shortest : Single := 1e-6

/-- The unit vector along `a`, if its length is finite and not negligible. -/
def normalize? (a : Planar) : Option Planar :=
  let length := a.length
  if !length.isFinite || length ≤ shortest then none else some (a / length)

def normalizeOrZero (a : Planar) : Planar := a.normalize?.getD zero

/-- A quarter turn to the left. -/
def perp (a : Planar) : Planar := ⟨-a.y, a.x⟩

def lerp (a b : Planar) (t : Single) : Planar := a + (b - a) * t

/-- The unit vector at an angle counted to the left from the first axis. -/
def ofDegrees (degrees : Single) : Planar :=
  let angle := degrees.toRadians
  ⟨angle.cosine, angle.sine⟩

/-- Turned to the left. -/
def rotate (a : Planar) (degrees : Single) : Planar :=
  let angle := degrees.toRadians
  let sine := angle.sine
  let cosine := angle.cosine
  ⟨a.x * cosine - a.y * sine, a.x * sine + a.y * cosine⟩

end Planar

end Choreo
