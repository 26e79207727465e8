import Choreo.Data.Value
import Choreo.Yaml.Resolution
import Choreo.Yaml.Scalar

/-!
# Writing YAML

A plain value as a block document. A text is written plainly if it then reads back as that text, in
single quotes if it needs quotes, in double quotes if it needs escapes, and as a literal block if it
has several lines.
-/

namespace Choreo.Yaml

/-- Singles are positional from `10 ^ -6` up to below `10 ^ 13`. -/
def singleLayout : Layout :=
  { positional := some (-6, 12), plus := false, point := true
    nan := ".nan", infinite := ".inf", negativeInfinite := "-.inf" }

namespace Text

/-- Characters that need no escape. -/
def isPrintable (c : Char) : Bool :=
  let n := c.val
  n == 0x0a || (0x20 ≤ n && n ≤ 0x7e) || (0xa0 ≤ n && n != 0xfeff && n != 0xfffe && n != 0xffff)

def endsWord : List Char → Bool
  | c :: _ => isBlank c || isBreak c
  | [] => true

/-- What stands in the way of the styles of a scalar. -/
structure Traits where
  indicator : Bool := false
  breaks : Bool := false
  special : Bool := false
  /-- A blank directly behind a break, and one directly before a break. -/
  breakSpace : Bool := false
  spaceBreak : Bool := false

/-- A character that would be read as something else at the beginning of a plain scalar. -/
def isLeadingIndicator (c : Char) (rest : List Char) : Bool :=
  "#,[]\x7b\x7d&*!|>'\"%@`".toList.contains c ||
    ((c == '?' || c == ':' || c == '-') && endsWord rest)

def isInnerIndicator (before : Char) (c : Char) (rest : List Char) : Bool :=
  (c == ':' && endsWord rest) || (c == '#' && endsWord [before])

def traits (t : Traits) (before : Option Char) : List Char → Traits
  | [] => t
  | c :: rest =>
    let indicator :=
      match before with
      | none => isLeadingIndicator c rest
      | some b => isInnerIndicator b c rest
    traits
      { indicator := t.indicator || indicator
        breaks := t.breaks || isBreak c
        special := t.special || !isPrintable c
        breakSpace := t.breakSpace || (c == ' ' && before.any isBreak)
        spaceBreak := t.spaceBreak || (isBreak c && before == some ' ') }
      (some c) rest

def beginsWithMark (cs : List Char) : Bool :=
  cs.take 3 == ['-', '-', '-'] || cs.take 3 == ['.', '.', '.']

/-- A text that would be read as a null, a flag or a number, or nearly so. -/
def resolves (s : String) : Bool :=
  s.isEmpty || Resolution.isNull s || (Resolution.flag? s).isSome ||
    ((Resolution.integer? s).any Resolution.Integer.isRepresentable) ||
    Resolution.hasNeedlessZero s.toList || (Resolution.real? s).isSome

def isSpaceOrBreak (c : Char) : Bool := c == ' ' || isBreak c

def styleOf (s : String) : Style :=
  let cs := s.toList
  let t := traits {} none cs
  let unquotable := t.spaceBreak || t.special
  if cs.contains '\n' then
    if unquotable || cs.getLast? == some ' ' then .double else .literal
  else if unquotable || t.breakSpace then .double
  else if resolves s || t.indicator || t.breaks || beginsWithMark cs ||
      cs.head?.any isSpaceOrBreak || cs.getLast?.any isSpaceOrBreak then .single
  else .plain

def spaces (n : Nat) : List Char := List.replicate n ' '

/-- Writes lines. What follows a break is indented, unless it is another break. -/
def indented (indent : Nat) (double : Char → List Char) (broken : Bool) : List Char → List Char
  | [] => []
  | c :: rest =>
    if isBreak c then c :: indented indent double true rest
    else (if broken then spaces indent else []) ++ double c ++ indented indent double false rest

def hexDigits (width n : Nat) : List Char :=
  let digits := (Nat.toDigits 16 n).map Char.toUpper
  List.replicate (width - digits.length) '0' ++ digits

def shortEscape? (c : Char) : Option Char :=
  [('\x00', '0'), ('\x07', 'a'), ('\x08', 'b'), ('\t', 't'), ('\n', 'n'), ('\x0b', 'v'),
    ('\x0c', 'f'), ('\r', 'r'), ('\x1b', 'e'), ('"', '"'), ('\\', '\\'), (Char.ofNat 0x85, 'N'),
    (Char.ofNat 0xa0, '_'), (Char.ofNat 0x2028, 'L'), (Char.ofNat 0x2029, 'P')].lookup c

def escaped (c : Char) : List Char :=
  if isPrintable c && !isBreak c && c != '"' && c != '\\' then [c]
  else
    match shortEscape? c with
    | some e => ['\\', e]
    | none =>
      if c.val ≤ 0xff then ['\\', 'x'] ++ hexDigits 2 c.toNat
      else if c.val ≤ 0xffff then ['\\', 'u'] ++ hexDigits 4 c.toNat
      else ['\\', 'U'] ++ hexDigits 8 c.toNat

/-- Indentation where the first line cannot show it, and what becomes of the last breaks. -/
def blockHints (cs : List Char) : List Char :=
  (if cs.head?.any isSpaceOrBreak then ['2'] else []) ++
    match cs.reverse with
    | [] => ['-']
    | c :: rest =>
      if !isBreak c then ['-']
      else
        match rest with
        | [] => ['+']
        | d :: _ => if isBreak d then ['+'] else []

/-- The text of a scalar whose further lines stand at a column. -/
def write (indent : Nat) (s : String) : List Char :=
  let cs := s.toList
  match styleOf s with
  | .plain => cs
  | .single =>
    let double (c : Char) : List Char := if c == '\'' then ['\'', '\''] else [c]
    let tail := if cs.getLast?.any isBreak then spaces indent else []
    ['\''] ++ indented indent double false cs ++ tail ++ ['\'']
  | .double => ['"'] ++ cs.flatMap escaped ++ ['"']
  | .literal | .folded => ['|'] ++ blockHints cs ++ ['\n'] ++ indented indent ([·]) true cs

end Text

/-- A scalar, if the value is one or an empty collection. -/
def inline? (indent : Nat) : Value → Option (List Char)
  | .null => some "null".toList
  | .flag b => some (toString b).toList
  | .integer negative n => some (toString (Value.signed negative n)).toList
  | .real x => some (singleLayout.render .single (Double.narrow x).exact).toList
  | .text s => some (Text.write (indent + 2) s)
  | .list [] => some ['[', ']']
  | .record [] => some ['\x7b', '\x7d']
  | .list (_ :: _) | .record (_ :: _) => none

/-- Ends a line that has not been ended by its own text. -/
def endLine (cs : List Char) : List Char :=
  if cs.getLast?.any isBreak then cs else cs ++ ['\n']

def keyText (indent : Nat) : Key → List Char
  | .text name => Text.write (indent + 2) name
  | .index place => (toString place).toList
  | .unreadable => []

mutual

/-- The lines of a collection at a column, the first without its indentation. -/
def block (indent : Nat) : Value → List Char
  | .list items => blockItems indent true items
  | .record entries => blockEntries indent true entries
  | v => endLine ((inline? indent v).getD [])

def blockItems (indent : Nat) (first : Bool) : List Value → List Char
  | [] => []
  | v :: rest =>
    (if first then [] else Text.spaces indent) ++ ['-', ' '] ++
      (match inline? indent v with
        | some text => endLine text
        | none => block (indent + 2) v) ++
      blockItems indent false rest

/-- Items of a list stand in the column of the key they belong to. -/
def blockEntries (indent : Nat) (first : Bool) : List (Key × Value) → List Char
  | [] => []
  | (key, v) :: rest =>
    (if first then [] else Text.spaces indent) ++ keyText indent key ++ [':'] ++
      (match inline? indent v with
        | some text => ' ' :: endLine text
        | none =>
          let inner :=
            match v with
            | .list _ => indent
            | _ => indent + 2
          '\n' :: Text.spaces inner ++ block inner v) ++
      blockEntries indent false rest

end

/-- The document of a value. -/
def render (v : Value) : String := String.ofList (block 0 v)

end Choreo.Yaml
