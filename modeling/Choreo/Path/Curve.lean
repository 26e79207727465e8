import Choreo.Planar

/-!
# Curves over the unit interval

A curve is a point for each parameter from `0` to `1`. Speed, tangent and length are estimated from
points alone, so they are defined once for every kind of path.
-/

namespace Choreo

abbrev Curve := Single → Planar

namespace Curve

/-- The parameter step for speed and tangent of a path that is followed. -/
def defaultStep : Single := 1e-3

/-- World distance per unit of parameter, by a forward difference: zero at the end and wherever the
estimate is not finite. -/
def speed (c : Curve) (t step : Single) : Single :=
  let t := t.clampUnit
  let next := (t + step).lesser 1
  let span := next - t
  if span ≤ 0 then 0
  else
    let speed := (c next).distance (c t) / span
    if speed.isFinite then speed else 0

/-- The unit tangent, by a forward difference, or by a backward one where that would leave the
curve. -/
def tangent? (c : Curve) (t step : Single) : Option Planar :=
  let t := t.clampUnit
  if t + step ≤ 1 then (c (t + step) - c t).normalize?
  else (c t - c ((t - step).greater 0)).normalize?

/-- The total length of a chain of chords, at least one. -/
def approximateLength (c : Curve) (chords : Nat) : Single :=
  let chords := max chords 1
  let ends := (List.range chords).map fun i => Single.ofCount (i + 1) / Single.ofCount chords
  (ends.foldl (fun (sum, last) t => (sum + (c t).distance last, c t)) ((0 : Single), c 0)).1

/-- Splits a parameter into a piece of a chain of `count` equal shares and the parameter within that
piece. The end belongs to the last piece. -/
def piece (t : Single) (count : Nat) : Nat × Single :=
  let scaled := t.clampUnit * Single.ofCount count
  let index := min scaled.toUInt64.toNat (count - 1)
  (index, scaled - Single.ofCount index)

end Curve

/-- Why a path cannot be followed. -/
inductive PathFault
  | tooFewPoints (count : Nat)
  | noCurves
  | notFinite (point : Nat)
  deriving DecidableEq

namespace PathFault

def message : PathFault → String
  | tooFewPoints count => "polyline needs at least two points, got " ++ toString count
  | noCurves => "bezier path has no curves"
  | notFinite point => "control point " ++ toString point ++ " is not finite"

/-- The first control point that is not finite is at fault. -/
def ofPoints (points : List Planar) : Option PathFault :=
  (points.findIdx? fun p => !p.isFinite).map notFinite

end PathFault

end Choreo
