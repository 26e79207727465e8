import Choreo.Number.Binary

/-!
# Numbers in JSON

A number without fraction and exponent is an integer if it fits 64 bits. Any other is a real: its
digits are gathered into 64 bits, digits that no longer fit are dropped, and one multiplication or
division by a power of ten brings it to its size. This is close to the nearest double, and exact for
whatever a single can be written as.
-/

namespace Choreo.Json

inductive Numeral
  | integer (n : Int)
  | real (x : Double)
  /-- A well-formed number beyond every double. -/
  | outOfRange
  deriving DecidableEq

namespace Numeral

def wordMax : Nat := UInt64.size - 1

def digitValue (c : Char) : Nat := c.toNat - '0'.toNat

/-- Appends digits to a significand as long as it stays in 64 bits; the rest is left over. -/
def gather (significand : Nat) : List Char → Nat × List Char
  | [] => (significand, [])
  | c :: rest =>
    let next := 10 * significand + digitValue c
    if next ≤ wordMax then gather next rest else (significand, c :: rest)

def powerOfTen (k : Nat) : Double := Double.ofExact (.ofDecimal false 1 k)

/-- The greatest power of ten that is a double. -/
def greatestPower : Nat := 308

/-- Multiplies or divides by a power of ten. What is too small for one division is divided in steps,
and is zero after a few. -/
def scale : Nat → Double → Int → Option Double
  | 0, _, _ => none
  | steps + 1, x, power =>
    if power.natAbs ≤ greatestPower then
      if 0 ≤ power then
        let product := x * powerOfTen power.natAbs
        if product.isInf then none else some product
      else some (x / powerOfTen power.natAbs)
    else if x == 0 then some x
    else if 0 ≤ power then none
    else scale steps (x / powerOfTen greatestPower) (power + greatestPower)

def ofParts (negative : Bool) (significand : Nat) (power : Int) : Numeral :=
  match scale 8 (Double.ofExact (.finite false significand 0)) power with
  | some x => real (if negative then -x else x)
  | none => outOfRange

/-- Written exponents from here on are not added up: they make zero or nothing. -/
def exponentLimit : Nat := Nat.pow 2 31

/-- The number with the given digits before and behind the point and the given exponent. -/
def ofDigits (negative : Bool) (whole : List Char) (fraction : Option (List Char))
    (exponent : Option (Bool × List Char)) : Numeral :=
  let (significand, dropped) := gather 0 whole
  let (full, cut) := gather significand (fraction.getD [])
  let power : Int := dropped.length - ((fraction.getD []).length - cut.length : Nat)
  match exponent with
  | some (down, digits) =>
    let size := (gather 0 digits).1
    if exponentLimit ≤ size then
      if down ∨ full = 0 then real (if negative then -0.0 else 0.0) else outOfRange
    else ofParts negative full (if down then power - size else power + size)
  | none =>
    if fraction.isSome ∨ dropped ≠ [] then ofParts negative full power
    else if !negative then integer full
    else if full = 0 ∨ Nat.pow 2 63 < full then ofParts true full 0
    else integer (-full)

end Numeral

end Choreo.Json
