import Choreo.Number.Shortest

/-!
# Number texts

How the digits of a real are laid out. A `Layout` holds the choices a text format makes; which
digits are shown is settled by the shortest decimal, or by a fixed number of places.
-/

namespace Choreo

structure Layout where
  /-- The leading digit's power of ten for which no exponent is written; `none` writes none ever. -/
  positional : Option (Int × Int)
  /-- A positive exponent carries its sign. -/
  plus : Bool
  /-- A whole number keeps one decimal place. -/
  point : Bool
  nan : String
  infinite : String
  negativeInfinite : String

namespace Layout

def minus (negative : Bool) : List Char := if negative then ['-'] else []

def decimal (n : Nat) : List Char := Nat.toDigits 10 n

def zeros (n : Nat) : List Char := List.replicate n '0'

/-- The first digit, a point, the others, and the power of ten of the first. -/
def scientific (l : Layout) (shown : List Char) (leading : Int) : List Char :=
  let fraction := shown.drop 1
  shown.take 1 ++ (if fraction.isEmpty then [] else '.' :: fraction) ++ ['e'] ++
    (if leading < 0 then ['-'] else if l.plus then ['+'] else []) ++ decimal leading.natAbs

/-- The digits followed by zeros, with a point among them, or behind zeros. -/
def plain (l : Layout) (shown : List Char) (power leading : Int) : List Char :=
  if 0 ≤ power then shown ++ zeros power.toNat ++ (if l.point then ['.', '0'] else [])
  else if leading < 0 then ['0', '.'] ++ zeros (-leading - 1).toNat ++ shown
  else
    let whole := (leading + 1).toNat
    shown.take whole ++ ['.'] ++ shown.drop whole

def positive (l : Layout) (digits : Nat) (power : Int) : List Char :=
  let shown := decimal digits
  let leading := power + shown.length - 1
  match l.positional with
  | none => l.plain shown power leading
  | some (least, greatest) =>
    if least ≤ leading ∧ leading ≤ greatest then l.plain shown power leading
    else l.scientific shown leading

def render (l : Layout) (w : Width) : Exact → String
  | .nan => l.nan
  | .infinite negative => if negative then l.negativeInfinite else l.infinite
  | .finite negative mantissa exponent =>
    String.ofList <| minus negative ++
      if mantissa = 0 then (if l.point then ['0', '.', '0'] else ['0'])
      else
        let (digits, power) := Shortest.digits w mantissa exponent
        l.positive digits power

/-- Plain decimals without an exponent. -/
def display : Layout :=
  { positional := none, plus := false, point := false
    nan := "NaN", infinite := "inf", negativeInfinite := "-inf" }

/-- `numerator / denominator` rounded to a whole number, a half to the even neighbour. -/
def roundHalfEven (numerator denominator : Nat) : Nat :=
  let quotient := numerator / denominator
  let rest := numerator % denominator
  if denominator < 2 * rest ∨ (2 * rest = denominator ∧ quotient % 2 = 1) then quotient + 1
  else quotient

/-- Padded on the left with blanks. -/
def padLeft (width : Nat) (text : String) : String :=
  String.ofList (List.replicate (width - text.length) ' ') ++ text

/-- The exact value to so many decimal places. -/
def fixed (places : Nat) : Exact → String
  | .nan => display.nan
  | .infinite negative => if negative then display.negativeInfinite else display.infinite
  | .finite negative mantissa exponent =>
    let scaled := mantissa * Nat.pow 10 places
    let units :=
      if 0 ≤ exponent then scaled * Nat.pow 2 exponent.toNat
      else roundHalfEven scaled (Nat.pow 2 (-exponent).toNat)
    let fraction := decimal (units % Nat.pow 10 places)
    String.ofList <| minus negative ++ decimal (units / Nat.pow 10 places) ++ ['.'] ++
      zeros (places - fraction.length) ++ fraction

end Layout

/-- A single in plain decimals. -/
def Single.display (x : Single) : String := Layout.display.render .single x.exact

end Choreo
