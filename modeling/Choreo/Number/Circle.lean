import Choreo.Number.Binary

/-!
# Sine and cosine

Both are computed in fixed point, in units of `2 ^ -256`, and rounded once. The angle is reduced by
whole quarter turns and the two series are summed on what remains. A single is a multiple of
`2 ^ -149`, so the reduction starts from the angle itself, and the error left by it is far below
half a unit in the last place of any result.
-/

namespace Choreo.UnitCircle

def fractionBits : Nat := 256

def one : Nat := Nat.pow 2 fractionBits

/-- A quarter turn, `π / 2`. -/
def quarter : Nat :=
  181885788445883162140117471388864931326696688664196214979386075558969447233092

/-- `term - term·s/(n(n+1)) + term·s²/(n(n+1)(n+2)(n+3)) - …` for the square `s` of the angle. -/
def series (square : Nat) : Nat → Nat → Nat → Nat
  | 0, _, _ => 0
  | rounds + 1, n, term =>
    term - series square rounds (n + 2) (term * square / one / (n * (n + 1)))

/-- Sixty terms: the next one is below a unit for every angle up to a quarter turn. -/
def seriesRounds : Nat := 60

def sineWithin (angle : Nat) : Nat := series (angle * angle / one) seriesRounds 2 angle

def cosineWithin (angle : Nat) : Nat := series (angle * angle / one) seriesRounds 1 one

/-- The sine of `quarters` quarter turns and `rest`, as a sign and a magnitude. -/
def sineAfter (quarters rest : Nat) : Bool × Nat :=
  match quarters % 4 with
  | 0 => (false, sineWithin rest)
  | 1 => (false, cosineWithin rest)
  | 2 => (true, sineWithin rest)
  | _ => (true, cosineWithin rest)

def toSingle (negative : Bool) (magnitude : Nat) : Single :=
  Single.ofExact (.finite negative magnitude (-(fractionBits : Int)))

def angleUnits (mantissa : Nat) (exponent : Int) : Nat :=
  mantissa * Nat.pow 2 (exponent + fractionBits).toNat

end Choreo.UnitCircle

namespace Choreo.Single

open UnitCircle

/-- The sine is odd, also at zero, and has no value at an angle that is not finite. -/
def sine (x : Single) : Single :=
  match x.exact with
  | .finite negative mantissa exponent =>
    let angle := angleUnits mantissa exponent
    let (flipped, magnitude) := sineAfter (angle / quarter) (angle % quarter)
    toSingle (negative != flipped) magnitude
  | _ => Single.ofExact .nan

/-- The cosine is the sine a quarter turn further, and even. -/
def cosine (x : Single) : Single :=
  match x.exact with
  | .finite _ mantissa exponent =>
    let angle := angleUnits mantissa exponent
    let (flipped, magnitude) := sineAfter (angle / quarter + 1) (angle % quarter)
    toSingle flipped magnitude
  | _ => Single.ofExact .nan

/-- One degree in radians, rounded: multiplying by it is how degrees are read. -/
def radiansPerDegree : Single := Float32.ofBits 0x3c8efa35

def toRadians (degrees : Single) : Single := degrees * radiansPerDegree

end Choreo.Single
