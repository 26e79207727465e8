import Choreo.Data.Hidden
import Choreo.Data.Value

/-!
# Why a reading fails

A text may be malformed, or be well-formed and say something of the wrong shape. The message of the
second tells what was found and what was expected.
-/

namespace Choreo

/-- What a reading came upon. -/
inductive Found
  | null
  | flag (b : Bool)
  | integer (n : Int)
  | real (x : Double)
  | text (s : String)
  | list
  | record
  | bareVariant

namespace Found

/-- Doubles in messages: positional from `10 ^ -5` up to below `10 ^ 16`. -/
def realLayout : Layout :=
  { Layout.display with positional := some (-5, 15), plus := true, point := true }

def escaped : Char → List Char
  | '"' => ['\\', '"']
  | '\\' => ['\\', '\\']
  | '\n' => ['\\', 'n']
  | '\r' => ['\\', 'r']
  | '\t' => ['\\', 't']
  | '\x00' => ['\\', '0']
  | c =>
    if isHidden c then ['\\', 'u', '\x7b'] ++ Nat.toDigits 16 c.toNat ++ ['\x7d'] else [c]

def quoted (s : String) : String := "\"" ++ String.ofList (s.toList.flatMap escaped) ++ "\""

def message : Found → String
  | null => "null"
  | flag b => "boolean `" ++ toString b ++ "`"
  | integer n => "integer `" ++ toString n ++ "`"
  | real x => "floating point `" ++ realLayout.render .double (Double.exact x) ++ "`"
  | text s => "string " ++ quoted s
  | list => "sequence"
  | record => "map"
  | bareVariant => "unit variant"

end Found

def Value.found : Value → Found
  | .null => .null
  | .flag b => .flag b
  | .integer negative n => .integer (signed negative n)
  | .real x => .real x
  | .text s => .text s
  | .list _ => .list
  | .record _ => .record

inductive DecodeError
  /-- The text itself breaks a rule of its notation. -/
  | malformed
  | wrongType (found : Found) (expected : String)
  | wrongValue (found : Found) (expected : String)
  | wrongLength (length : Nat) (expected : String)
  | unknownVariant (name : String) (known : List String)
  | missingField (name : String)
  | duplicateField (name : String)

namespace DecodeError

def ticked (s : String) : String := "`" ++ s ++ "`"

/-- Two names are joined by "or", more are listed. -/
def alternatives : List String → String
  | [only] => ticked only
  | [first, second] => ticked first ++ " or " ++ ticked second
  | names => "one of " ++ ", ".intercalate (names.map ticked)

def message : DecodeError → String
  | malformed => "malformed text"
  | wrongType found expected => "invalid type: " ++ found.message ++ ", expected " ++ expected
  | wrongValue found expected => "invalid value: " ++ found.message ++ ", expected " ++ expected
  | wrongLength length expected =>
    "invalid length " ++ toString length ++ ", expected " ++ expected
  | unknownVariant name known =>
    "unknown variant " ++ ticked name ++ ", expected " ++ alternatives known
  | missingField name => "missing field " ++ ticked name
  | duplicateField name => "duplicate field " ++ ticked name

end DecodeError

/-- "1 element", "2 elements". -/
def elementCount (n : Nat) : String := toString n ++ (if n = 1 then " element" else " elements")

end Choreo
