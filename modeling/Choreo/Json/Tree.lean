import Choreo.Data.Value
import Choreo.Json.Number
import Choreo.Number.Decimal

/-!
# JSON texts

A text is read into a tree as far as it goes. Where it breaks a rule of the notation the tree holds a
`broken` leaf and the lists and maps around it stay open, so that a decoder can still find what is
wrong with the part before. A number or text that is well-formed but stands for nothing is
`unreadable`: it may be passed over, not read.
-/

namespace Choreo

inductive Json
  | null
  | flag (b : Bool)
  | integer (n : Int)
  | real (x : Double)
  | text (s : String)
  | list (items : List Json) (closed : Bool)
  | record (entries : List (Option String × Json)) (closed : Bool)
  | unreadable
  | broken

namespace Json

instance : Inhabited Json := ⟨.null⟩

def ofNumeral : Numeral → Json
  | .integer n => integer n
  | .real x => real x
  | .outOfRange => unreadable

def isBlank (c : Char) : Bool := c == ' ' || c == '\n' || c == '\t' || c == '\r'

def skipBlanks (cs : List Char) : List Char := cs.dropWhile isBlank

def hex4? (a b c d : Char) : Option Nat := do
  return 4096 * (← hexValue? a) + 256 * (← hexValue? b) + 16 * (← hexValue? c) + (← hexValue? d)

def simpleEscape? : Char → Option Char
  | '"' => some '"'
  | '\\' => some '\\'
  | '/' => some '/'
  | 'b' => some '\x08'
  | 'f' => some '\x0c'
  | 'n' => some '\n'
  | 'r' => some '\r'
  | 't' => some '\t'
  | _ => none

def isHighSurrogate (n : Nat) : Bool := 0xd800 ≤ n && n < 0xdc00

def isLowSurrogate (n : Nat) : Bool := 0xdc00 ≤ n && n < 0xe000

/-- What came of a text in quotes. -/
inductive Quoted
  | text (s : String)
  | unreadable
  | broken

/-- The characters of a text so far, last one first, and the first half of a surrogate pair that waits
for its second. A half without the other makes the text unreadable. -/
structure Gathered where
  reversed : Option (List Char) := some []
  high : Option Nat := none

namespace Gathered

def push (g : Gathered) (c : Char) : Gathered :=
  match g.high with
  | none => { g with reversed := g.reversed.map (c :: ·) }
  | some _ => ⟨none, none⟩

def pushUnit (g : Gathered) (unit : Nat) : Gathered :=
  if isLowSurrogate unit then
    match g.high with
    | some high =>
      ⟨g.reversed.map (Char.ofNat (0x10000 + (high - 0xd800) * 0x400 + (unit - 0xdc00)) :: ·), none⟩
    | none => ⟨none, none⟩
  else if isHighSurrogate unit then
    match g.high with
    | some _ => ⟨none, none⟩
    | none => { g with high := some unit }
  else g.push (Char.ofNat unit)

def text? (g : Gathered) : Option String :=
  if g.high.isSome then none else g.reversed.map fun cs => String.ofList cs.reverse

end Gathered

/-- Reads up to the closing quote: the text, if it can be read, and what follows. A text that breaks
off or breaks a rule gives nothing at all. -/
def quoted (g : Gathered) : List Char → Option (Option String × List Char)
  | '"' :: rest => some (g.text?, rest)
  | '\\' :: 'u' :: a :: b :: c :: d :: rest =>
    match hex4? a b c d with
    | some unit => quoted (g.pushUnit unit) rest
    | none => none
  | '\\' :: e :: rest =>
    match simpleEscape? e with
    | some c => quoted (g.push c) rest
    | none => none
  | c :: rest => if c < ' ' then none else quoted (g.push c) rest
  | [] => none

/-- The exponent of a number, if one follows: its direction and its digits. -/
def exponent? (cs : List Char) : Option (Option (Bool × List Char)) × List Char :=
  match cs with
  | 'e' :: rest | 'E' :: rest =>
    let (down, rest) :=
      match rest with
      | '-' :: r => (true, r)
      | '+' :: r => (false, r)
      | r => (false, r)
    let digits := rest.takeWhile isDigit
    if digits.isEmpty then (none, []) else (some (some (down, digits)), rest.dropWhile isDigit)
  | _ => (some none, cs)

/-- Reads a number. A whole part has no needless leading zero, and no part may be empty. -/
def number (negative : Bool) (cs : List Char) : Json × List Char :=
  let whole := cs.takeWhile isDigit
  let rest := cs.dropWhile isDigit
  if whole.isEmpty || (whole.length != 1 && whole.head? == some '0') then (broken, [])
  else
    let (fraction, rest) : Option (List Char) × List Char :=
      match rest with
      | '.' :: r => (some (r.takeWhile isDigit), r.dropWhile isDigit)
      | r => (none, r)
    if fraction == some [] then (broken, [])
    else
      match exponent? rest with
      | (none, _) => (broken, [])
      | (some exponent, rest) => (ofNumeral (.ofDigits negative whole fraction exponent), rest)

def literal (word : String) (value : Json) (cs : List Char) : Json × List Char :=
  if word.toList.isPrefixOf cs then (value, cs.drop word.length) else (broken, [])

/-- Nested too deeply, a list or map may only be passed over. -/
def limited (room : Nat) (closed : Bool) (value : Json) : Json :=
  if 0 < room then value else if closed then unreadable else broken

mutual

/-- Reads a value, with room for so many levels of lists and maps, and returns what follows it. Every
two steps of fuel consume a character. -/
def value (fuel room : Nat) (cs : List Char) : Json × List Char :=
  match fuel with
  | 0 => (broken, [])
  | fuel + 1 =>
    match skipBlanks cs with
    | 'n' :: rest => literal "ull" null rest
    | 't' :: rest => literal "rue" (flag true) rest
    | 'f' :: rest => literal "alse" (flag false) rest
    | '"' :: rest =>
      match quoted {} rest with
      | some (some s, rest) => (text s, rest)
      | some (none, rest) => (unreadable, rest)
      | none => (broken, [])
    | '[' :: rest =>
      let (items, closed, rest) := listItems fuel (room - 1) true rest
      (limited room closed (list items closed), rest)
    | '\x7b' :: rest =>
      let (entries, closed, rest) := recordEntries fuel (room - 1) true rest
      (limited room closed (record entries closed), rest)
    | '-' :: rest => number true rest
    | c :: rest => if isDigit c then number false (c :: rest) else (broken, [])
    | [] => (broken, [])

/-- Reads the items of a list up to its end. -/
def listItems (fuel room : Nat) (first : Bool) (cs : List Char) :
    List Json × Bool × List Char :=
  match fuel with
  | 0 => ([], false, [])
  | fuel + 1 =>
    let item (cs : List Char) :=
      match value fuel room cs with
      | (v, rest) =>
        let (items, closed, rest) := listItems fuel room false rest
        (v :: items, closed, rest)
    match skipBlanks cs with
    | ']' :: rest => ([], true, rest)
    | ',' :: rest =>
      if first then ([], false, [])
      else if (skipBlanks rest).head? == some ']' then ([], false, [])
      else item rest
    | rest => if first && !rest.isEmpty then item rest else ([], false, [])

/-- Reads the entries of a map up to its end. -/
def recordEntries (fuel room : Nat) (first : Bool) (cs : List Char) :
    List (Option String × Json) × Bool × List Char :=
  match fuel with
  | 0 => ([], false, [])
  | fuel + 1 =>
    let entry (cs : List Char) :=
      match skipBlanks cs with
      | '"' :: rest =>
        match quoted {} rest with
        | none => ([], false, [])
        | some (name, rest) =>
          match skipBlanks rest with
          | ':' :: rest =>
            let (v, rest) := value fuel room rest
            let (entries, closed, rest) := recordEntries fuel room false rest
            ((name, v) :: entries, closed, rest)
          | _ => ([(name, broken)], false, [])
      | _ => ([], false, [])
    match skipBlanks cs with
    | '\x7d' :: rest => ([], true, rest)
    | ',' :: rest => if first then ([], false, []) else entry rest
    | rest => if first then entry rest else ([], false, [])

end

/-- A whole text, and whether nothing follows the value in it. -/
structure Document where
  root : Json
  complete : Bool

/-- Reads a text in which lists and maps are nested so deep at most. -/
def ofTextWithin (room : Nat) (text : String) : Document :=
  let cs := text.toList
  let (root, rest) := value (2 * cs.length + 2) room cs
  ⟨root, (skipBlanks rest).isEmpty⟩

/-- Lists and maps may be nested this deep. -/
def depthLimit : Nat := 127

def ofText (text : String) : Document := ofTextWithin depthLimit text

end Json

end Choreo
