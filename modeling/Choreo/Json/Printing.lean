import Choreo.Data.Value

/-!
# Writing JSON

The compact text of a plain value. A real is written with the digits that tell it from every other
single; one that is not finite has no text and becomes null.
-/

namespace Choreo.Json

/-- Singles are positional from `10 ^ -6` up to below `10 ^ 13`. -/
def singleLayout : Layout :=
  { positional := some (-6, 12), plus := true, point := true
    nan := "null", infinite := "null", negativeInfinite := "null" }

def hexDigits (n : Nat) : List Char :=
  let digits := Nat.toDigits 16 n
  List.replicate (4 - digits.length) '0' ++ digits

def escaped : Char → List Char
  | '"' => ['\\', '"']
  | '\\' => ['\\', '\\']
  | '\n' => ['\\', 'n']
  | '\r' => ['\\', 'r']
  | '\t' => ['\\', 't']
  | '\x08' => ['\\', 'b']
  | '\x0c' => ['\\', 'f']
  | c => if c < ' ' then ['\\', 'u'] ++ hexDigits c.toNat else [c]

def textOf (s : String) : String := "\"" ++ String.ofList (s.toList.flatMap escaped) ++ "\""

def nameOf : Key → String
  | .text name => textOf name
  | .index place => textOf (toString place)
  | .unreadable => textOf ""

mutual

def render : Value → String
  | .null => "null"
  | .flag b => toString b
  | .integer negative n => toString (Value.signed negative n)
  | .real x => singleLayout.render .single (Double.narrow x).exact
  | .text s => textOf s
  | .list items => "[" ++ ",".intercalate (renderItems items) ++ "]"
  | .record entries => "\x7b" ++ ",".intercalate (renderEntries entries) ++ "\x7d"

def renderItems : List Value → List String
  | [] => []
  | v :: rest => render v :: renderItems rest

def renderEntries : List (Key × Value) → List String
  | [] => []
  | (key, v) :: rest => (nameOf key ++ ":" ++ render v) :: renderEntries rest

end

end Choreo.Json
