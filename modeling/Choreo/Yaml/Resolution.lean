import Choreo.Yaml.Place

/-!
# What plain scalars mean

A plain scalar may be null, a flag, an integer or a real. Integers may be hexadecimal, octal or binary;
a digit with needless zeros before it is a text.
-/

namespace Choreo.Yaml.Resolution

def isNull (s : String) : Bool := s == "null" || s == "Null" || s == "NULL" || s == "~"

def flag? (s : String) : Option Bool :=
  if s == "true" || s == "True" || s == "TRUE" then some true
  else if s == "false" || s == "False" || s == "FALSE" then some false
  else none

def radix? : Char → Option Nat
  | 'x' => some 16
  | 'o' => some 8
  | 'b' => some 2
  | _ => none

/-- Digits behind a prefix that names their base. -/
def based? : List Char → Option Nat
  | '0' :: c :: rest => do digits? (← radix? c) rest
  | _ => none

def isNumeral (cs : List Char) : Bool := cs.all isDigit

/-- A zero with digits behind it. -/
def hasNeedlessZero (cs : List Char) : Bool :=
  let digits :=
    match cs with
    | '-' :: rest | '+' :: rest => rest
    | cs => cs
  1 < digits.length && digits.head? == some '0' && isNumeral digits

def isSign (c : Char) : Bool := c == '+' || c == '-'

/-- An integer without a sign, or with a plus. -/
def natural? (s : String) : Option Nat :=
  let cs := s.toList
  let body :=
    match cs with
    | '+' :: rest => rest
    | cs => cs
  match based? body with
  | some n => some n
  | none => if hasNeedlessZero cs then none else digits? 10 body

/-- An integer as it is written: a zero behind a minus is not the zero without one. -/
structure Integer where
  negative : Bool
  magnitude : Nat

namespace Integer

/-- Whether the integer fits so many bits, one of which a negative one needs for its sign. -/
def fits (i : Integer) (bits : Nat) : Bool :=
  if i.negative then i.magnitude ≤ Nat.pow 2 (bits - 1) else i.magnitude < Nat.pow 2 bits

/-- Whether the integer is one at all: wider ones are not. -/
def isRepresentable (i : Integer) : Bool := i.fits 128

end Integer

def integer? (s : String) : Option Integer :=
  match natural? s with
  | some n => some ⟨false, n⟩
  | none =>
    match s.toList with
    | '-' :: body =>
      match based? body with
      | some n => some ⟨true, n⟩
      | none => if hasNeedlessZero body then none else (digits? 10 body).map fun n => ⟨true, n⟩
    | _ => none

def isInfinite (s : String) : Bool := s == ".inf" || s == ".Inf" || s == ".INF"

/-- A real. One that is too large for a double is none. -/
def real? (s : String) : Option Double :=
  let cs := s.toList
  let finite (negative : Bool) (cs : List Char) : Option Double := do
    let x := Double.ofExact (← Exact.decimal? negative cs)
    if x.isFinite then some x else none
  if s == ".nan" || s == ".NaN" || s == ".NAN" then some (Double.ofExact .nan)
  else
    match cs with
    | '+' :: rest =>
      if isInfinite (String.ofList rest) then some (Double.ofExact (.infinite false))
      else if rest.head?.any isSign then none
      else finite false rest
    | '-' :: rest =>
      if isInfinite (String.ofList rest) then some (Double.ofExact (.infinite true))
      else finite true rest
    | cs => if isInfinite s then some (Double.ofExact (.infinite false)) else finite false cs

end Choreo.Yaml.Resolution
