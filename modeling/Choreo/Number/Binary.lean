/-!
# Binary reals

The two widths of real that a script meets. Every quantity the interpreter computes with is a
`Single`; a number passes through a text as a `Double`. Both can be taken apart exactly, and every
way of making one here rounds once, to nearest with ties to even.
-/

namespace Choreo

/-- A 32-bit real. Arithmetic on it rounds each result to nearest, and nothing is fused. -/
abbrev Single := Float32

/-- A 64-bit real. -/
abbrev Double := Float

/-- What a binary real stands for, without rounding: a finite one is
`±mantissa * 2 ^ exponent`, and a zero keeps its sign. -/
inductive Exact
  | nan
  | infinite (negative : Bool)
  | finite (negative : Bool) (mantissa : Nat) (exponent : Int)
  deriving DecidableEq

namespace Exact

open Float.Model (UnpackedFloat)

def ofUnpacked : UnpackedFloat → Exact
  | .notANumber => .nan
  | .infinity sign => .infinite (sign == .negative)
  | .zero sign => .finite (sign == .negative) 0 0
  | .finite sign mantissa exponent _ => .finite (sign == .negative) mantissa exponent

/-- The nearest real of a format, ties to even. -/
def round (format : Float.Model.Format) : Exact → UnpackedFloat
  | .nan => .notANumber
  | .infinite negative => .infinity (if negative then .negative else .positive)
  | .finite negative mantissa exponent =>
    let sign := if negative then .negative else .positive
    if mantissa = 0 then .zero sign else UnpackedFloat.round format sign mantissa exponent

/-- The quotient of two naturals, cut after so many bits that rounding it once more is rounding the
quotient itself: the last bit records whether anything was cut off. -/
def ofQuotient (negative : Bool) (numerator denominator : Nat) : Exact :=
  let shift := denominator.log2 + 68 - numerator.log2
  let scaled := numerator * Nat.pow 2 shift
  .finite negative (2 * (scaled / denominator) + (if scaled % denominator = 0 then 0 else 1))
    (-(shift : Int) - 1)

/-- Decimal magnitudes at or beyond `10 ^ decimalReach` are infinite in both widths, and those
below `10 ^ -decimalReach` are zero. -/
def decimalReach : Int := 400

/-- The decimal `±digits * 10 ^ exponent`, close enough to round correctly in both widths. -/
def ofDecimal (negative : Bool) (digits : Nat) (exponent : Int) : Exact :=
  let magnitude := exponent + (Nat.toDigits 10 digits).length
  if digits = 0 ∨ magnitude < -decimalReach then .finite negative 0 0
  else if decimalReach < magnitude then .infinite negative
  else if 0 ≤ exponent then .finite negative (digits * Nat.pow 10 exponent.toNat) 0
  else ofQuotient negative digits (Nat.pow 10 (-exponent).toNat)

end Exact

def Single.exact (x : Single) : Exact := Exact.ofUnpacked x.toModel.unpack

def Single.ofExact (x : Exact) : Single := ⟨Float32.Model.pack (x.round .binary32)⟩

def Double.exact (x : Double) : Exact := Exact.ofUnpacked x.toModel.unpack

def Double.ofExact (x : Exact) : Double := ⟨Float.Model.pack (x.round .binary64)⟩

/-- Every single is a double. -/
def Single.widen (x : Single) : Double := Double.ofExact x.exact

/-- The nearest single. -/
def Double.narrow (x : Double) : Single := Single.ofExact (Double.exact x)

namespace Single

/-- The smaller of two, or the one that is a number. -/
def lesser (x y : Single) : Single :=
  if x.isNaN then y else if y < x then y else x

/-- The larger of two, or the one that is a number. -/
def greater (x y : Single) : Single :=
  if x.isNaN then y else if x < y then y else x

/-- Brings `x` between `0` and `1`. What is not a number stays so. -/
def clampUnit (x : Single) : Single :=
  if x < 0 then 0 else if 1 < x then 1 else x

def isPositiveFinite (x : Single) : Bool := x.isFinite && 0 < x

/-- A count, rounded. -/
def ofCount (n : Nat) : Single := Single.ofExact (.finite false n 0)

end Single

end Choreo
