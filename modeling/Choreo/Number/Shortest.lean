import Choreo.Number.Binary

/-!
# Fewest digits

The shortest decimal that rounds to a given binary real. The reals that round to it form an
interval, closed exactly when its mantissa is even; the coarsest power of ten with a multiple in
that interval gives the fewest digits, and of two multiples the nearer one is taken.
-/

namespace Choreo

/-- What fixes the neighbours of a binary real: the bits of a full mantissa and the exponent of the
smallest positive real. -/
structure Width where
  precision : Nat
  leastExponent : Int

def Width.single : Width := ⟨24, -149⟩

def Width.double : Width := ⟨53, -1074⟩

namespace Shortest

/-- A positive real and the ends of the interval that rounds to it, as multiples of one unit. -/
structure Span where
  low : Nat
  value : Nat
  high : Nat
  closed : Bool

def Span.contains (s : Span) (x : Nat) : Bool :=
  if s.closed then s.low ≤ x && x ≤ s.high else s.low < x && x < s.high

/-- In quarters of the last place. Below a power of two the neighbour is only half as far. -/
def Span.ofMantissa (w : Width) (mantissa : Nat) (exponent : Int) : Span :=
  let lopsided := mantissa = Nat.pow 2 (w.precision - 1) ∧ w.leastExponent < exponent
  { low := 4 * mantissa - (if lopsided then 1 else 2)
    value := 4 * mantissa
    high := 4 * mantissa + 2
    closed := mantissa % 2 = 0 }

def Span.scale (s : Span) (k : Nat) : Span :=
  { s with low := s.low * k, value := s.value * k, high := s.high * k }

/-- The multiple of `grid` in the span that is nearest to its value, if there is one. A tie goes to
the even multiple. -/
def Span.multiple? (s : Span) (grid : Nat) : Option Nat :=
  let below := s.value / grid
  let rest := s.value % grid
  let lower := 0 < below ∧ s.contains (below * grid)
  let upper := s.contains ((below + 1) * grid)
  let preferLower := 2 * rest < grid ∨ (2 * rest = grid ∧ below % 2 = 0)
  if lower ∧ (¬ upper ∨ preferLower) then some below
  else if upper then some (below + 1)
  else none

/-- Tries the powers of ten from `power` downwards. The units of the span are `1 / unit`. -/
def search (s : Span) (unit : Nat) : Nat → Int → Nat × Int
  | 0, power => (s.value, power)
  | rounds + 1, power =>
    let found :=
      if 0 ≤ power then s.multiple? (Nat.pow 10 power.toNat * unit)
      else (s.scale (Nat.pow 10 (-power).toNat)).multiple? unit
    match found with
    | some digits => (digits, power)
    | none => search s unit rounds (power - 1)

/-- A power of ten above `mantissa * 2 ^ exponent` by less than two places. -/
def powerAbove (mantissa : Nat) (exponent : Int) : Int :=
  ((mantissa.log2 : Int) + 1 + exponent) * 30103 / 100000 + 1

/-- The fewest digits `(d, p)` with `d * 10 ^ p` rounding to the positive
`mantissa * 2 ^ exponent`. -/
def digits (w : Width) (mantissa : Nat) (exponent : Int) : Nat × Int :=
  let span := Span.ofMantissa w mantissa exponent
  let start := powerAbove mantissa exponent
  if 2 ≤ exponent then search (span.scale (Nat.pow 2 (exponent - 2).toNat)) 1 25 start
  else search span (Nat.pow 2 (2 - exponent).toNat) 25 start

end Shortest

end Choreo
