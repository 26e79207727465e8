import Choreo.Number.Binary

/-!
# Numerals

Numerals as they stand in texts.
-/

namespace Choreo

def isDigit (c : Char) : Bool := '0' ≤ c && c ≤ '9'

def hexValue? (c : Char) : Option Nat :=
  if isDigit c then some (c.toNat - '0'.toNat)
  else if 'a' ≤ c && c ≤ 'f' then some (c.toNat - 'a'.toNat + 10)
  else if 'A' ≤ c && c ≤ 'F' then some (c.toNat - 'A'.toNat + 10)
  else none

/-- Digits of a base up to sixteen, at least one. -/
def digits? (base : Nat) (cs : List Char) : Option Nat :=
  if cs.isEmpty then none
  else cs.foldlM (fun n c => do
    let d ← hexValue? c
    if d < base then pure (base * n + d) else none) 0

/-- A decimal: digits with a point among, before or behind them, and maybe an exponent. -/
def Exact.decimal? (negative : Bool) (cs : List Char) : Option Exact :=
  let whole := cs.takeWhile isDigit
  let (fraction, rest) :=
    match cs.dropWhile isDigit with
    | '.' :: rest => (rest.takeWhile isDigit, rest.dropWhile isDigit)
    | rest => ([], rest)
  let value (exponent : Int) : Option Exact :=
    (digits? 10 (whole ++ fraction)).map fun n =>
      .ofDecimal negative n (exponent - fraction.length)
  match rest with
  | [] => value 0
  | 'e' :: rest | 'E' :: rest =>
    match rest with
    | '-' :: digits => (digits? 10 digits).bind fun n => value (-n)
    | '+' :: digits => (digits? 10 digits).bind fun n => value n
    | digits => (digits? 10 digits).bind fun n => value n
  | _ => none

/-- A real as it may be given on a command line: a decimal, an infinity or what is no number, with or
without a sign. -/
def Exact.ofText? (text : String) : Option Exact :=
  let (negative, body) :=
    match text.toList with
    | '-' :: rest => (true, rest)
    | '+' :: rest => (false, rest)
    | cs => (false, cs)
  let word := String.ofList (body.map Char.toLower)
  if word == "inf" || word == "infinity" then some (.infinite negative)
  else if word == "nan" then some .nan
  else decimal? negative body

/-- A natural number with nothing but digits, and maybe a plus before them. -/
def naturalOfText? (text : String) : Option Nat :=
  match text.toList with
  | '+' :: rest => digits? 10 rest
  | cs => digits? 10 cs

end Choreo
