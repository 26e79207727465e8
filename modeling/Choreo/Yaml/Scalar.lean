import Choreo.Yaml.Place

/-!
# Scalars in YAML

The five ways to write a scalar, read into its text. Line breaks inside a scalar are folded: one break
between words is a space, and of several the first is dropped. A literal block keeps them all.
-/

namespace Choreo.Yaml

inductive Style
  | plain
  | single
  | double
  | literal
  | folded
  deriving DecidableEq

/-- The blanks and breaks between two words. -/
structure Gap where
  blanks : List Char := []
  /-- A line break has been passed; blanks no longer count. -/
  broken : Bool := false
  leading : List Char := []
  trailing : List Char := []

namespace Gap

/-- What the gap contributes to the text. -/
def text (g : Gap) : List Char :=
  if !g.broken then g.blanks
  else if g.leading == ['\n'] then (if g.trailing.isEmpty then [' '] else g.trailing)
  else g.leading ++ g.trailing

/-- Passes blanks and breaks. After a break, no tab may stand left of column `limit`. -/
def read (limit : Nat) : Nat → Gap → Place → Option (Gap × Place)
  | 0, g, p => some (g, p)
  | fuel + 1, g, p =>
    match p.head? with
    | some c =>
      if isBlank c then
        if g.broken then
          if c == '\t' && p.column < limit then none else read limit fuel g p.skip
        else read limit fuel { g with blanks := g.blanks ++ [c] } p.skip
      else if isBreak c then
        let (text, p) := p.takeBreak
        if g.broken then read limit fuel { g with trailing := g.trailing ++ text } p
        else read limit fuel { g with broken := true, leading := text } p
      else some (g, p)
    | none => some (g, p)

end Gap

/-! ## Plain scalars -/

namespace Plain

/-- Brackets, braces and commas end a plain scalar inside a flow collection. -/
def isFlowEnd (c : Char) : Bool := c == ',' || c == '[' || c == ']' || c == '\x7b' || c == '\x7d'

/-- Reads one word, last character first. In a flow collection a colon may not touch an indicator. -/
def word (flow : Bool) : List Char → List Char → Place → Option (List Char × Place)
  | [], acc, p => some (acc, p)
  | c :: rest, acc, p =>
    if isBlank c || isBreak c then some (acc, p)
    else if flow && c == ':' && p.looks 1 false (fun d => isFlowEnd d || d == '?') then none
    else if (c == ':' && p.endsWord 1) || (flow && isFlowEnd c) then some (acc, p)
    else word flow rest (c :: acc) p.skip

/-- The text of a plain scalar, whether a break was passed behind it, and what follows. -/
def read (flow : Bool) (indent : Nat) :
    Nat → List Char → Gap → Place → Option (String × Bool × Place)
  | 0, _, _, _ => none
  | fuel + 1, acc, g, p =>
    let done (acc : List Char) (g : Gap) (p : Place) :=
      some (String.ofList acc.reverse, g.broken, p)
    if p.seesDocumentMark || p.sees '#' then done acc g p
    else
      match word flow p.rest [] p with
      | none => none
      | some (run, p) =>
        let (acc, g) : List Char × Gap :=
          if run.isEmpty then (acc, g) else (run ++ g.text.reverse ++ acc, {})
        if !(p.seesBlank || p.seesBreak) then done acc g p
        else
          match g.read indent (p.rest.length + 1) p with
          | none => none
          | some (g, p) =>
            if !flow && p.column < indent then done acc g p else read flow indent fuel acc g p

end Plain

/-! ## Quoted scalars -/

namespace Quoted

def escape? : Char → Option Char
  | '0' => some '\x00'
  | 'a' => some '\x07'
  | 'b' => some '\x08'
  | 't' | '\t' => some '\t'
  | 'n' => some '\n'
  | 'v' => some '\x0b'
  | 'f' => some '\x0c'
  | 'r' => some '\r'
  | 'e' => some '\x1b'
  | ' ' => some ' '
  | '"' => some '"'
  | '/' => some '/'
  | '\\' => some '\\'
  | 'N' => some (Char.ofNat 0x85)
  | '_' => some (Char.ofNat 0xa0)
  | 'L' => some (Char.ofNat 0x2028)
  | 'P' => some (Char.ofNat 0x2029)
  | _ => none

/-- How many digits follow an escape that names a character by its number. -/
def escapeDigits? : Char → Option Nat
  | 'x' => some 2
  | 'u' => some 4
  | 'U' => some 8
  | _ => none

def numbered? (digits : List Char) : Option Char := do
  let n ← digits.foldlM (fun n c => (16 * n + ·) <$> hexValue? c) 0
  if n.isValidChar then some (Char.ofNat n) else none

/-- Where a word between quotes stopped. -/
structure Word where
  reversed : List Char
  /-- It ended with an escaped line break, which joins the lines without a space. -/
  joined : Bool
  place : Place

/-- Reads one word of a scalar in the given quotes. -/
def word (quote : Char) : Nat → List Char → Place → Option Word
  | 0, _, _ => none
  | fuel + 1, acc, p =>
    match p.rest with
    | [] => some ⟨acc, false, p⟩
    | c :: rest =>
      if isBlank c || isBreak c then some ⟨acc, false, p⟩
      else if c == quote then
        if quote == '\'' && rest.head? == some '\'' then
          word quote fuel ('\'' :: acc) (p.skipMany 2)
        else some ⟨acc, false, p⟩
      else if quote == '"' && c == '\\' then
        match rest with
        | [] => none
        | e :: more =>
          if isBreak e then some ⟨acc, true, p.skip.skipBreak⟩
          else
            match escapeDigits? e with
            | some count =>
              if more.length < count then none
              else
                match numbered? (more.take count) with
                | some d => word quote fuel (d :: acc) (p.skipMany (2 + count))
                | none => none
            | none =>
              match escape? e with
              | some d => word quote fuel (d :: acc) (p.skipMany 2)
              | none => none
      else word quote fuel (c :: acc) p.skip

def readOn (quote : Char) : Nat → List Char → Place → Option (String × Place)
  | 0, _, _ => none
  | fuel + 1, acc, p =>
    if p.seesDocumentMark || p.isAtEnd then none
    else
      match word quote (p.rest.length + 1) acc p with
      | none => none
      | some w =>
        if w.place.sees quote then some (String.ofList w.reversed.reverse, w.place.skip)
        else
          match Gap.read 0 (w.place.rest.length + 1) { broken := w.joined } w.place with
          | none => none
          | some (g, p) => readOn quote fuel (g.text.reverse ++ w.reversed) p

/-- Reads a scalar from its opening quote on. -/
def read (quote : Char) (p : Place) : Option (String × Place) :=
  readOn quote (p.rest.length + 1) [] p.skip

end Quoted

/-! ## Block scalars -/

namespace Block

/-- What becomes of the breaks at the end: the last one is kept, all are, or none is. -/
inductive Chomp
  | clip
  | keep
  | strip
  deriving DecidableEq

def chomp? : Char → Option Chomp
  | '+' => some .keep
  | '-' => some .strip
  | _ => none

structure Start where
  chomp : Chomp
  /-- The authored indentation, if there is one. -/
  increment : Option Nat
  place : Place

/-- Reads what stands behind the indicator: chomping and indentation, in either order. -/
def start? (p : Place) : Option Start :=
  let increment? (p : Place) : Option (Option Nat × Place) :=
    match p.head? with
    | some c =>
      if c == '0' then none
      else if isDigit c then some (some (c.toNat - '0'.toNat), p.skip)
      else some (none, p)
    | none => some (none, p)
  match p.head?.bind chomp? with
  | some chomp => (increment? p.skip).map fun (increment, p) => ⟨chomp, increment, p⟩
  | none =>
    (increment? p).map fun (increment, p) =>
      match increment, p.head?.bind chomp? with
      | some n, some chomp => ⟨chomp, some n, p.skip⟩
      | increment, _ => ⟨.clip, increment, p⟩

/-- Passes indentation and empty lines. Without a known indentation, the greatest column reached so
far is kept; a tab may not stand in the indentation. -/
def breaks (indent : Option Nat) :
    Nat → Nat → List Char → Place → Option (Nat × List Char × Place)
  | 0, _, _, _ => none
  | fuel + 1, widest, acc, p =>
    let inside (p : Place) : Bool :=
      match indent with
      | some n => p.column < n
      | none => true
    let rec spaces : List Char → Place → Place
      | c :: rest, p => if inside p && c == ' ' then spaces rest p.skip else p
      | [], p => p
    let p := spaces p.rest p
    let widest := max widest p.column
    if inside p && p.sees '\t' then none
    else if p.seesBreak then
      let (text, p) := p.takeBreak
      breaks indent fuel widest (acc ++ text) p
    else some (widest, acc, p)

structure Lines where
  text : List Char := []
  leading : List Char := []
  trailing : List Char := []
  /-- The last line began with a blank, so its break is not folded. -/
  indented : Bool := false

def lines (literal : Bool) (indent : Nat) : Nat → Lines → Place → Option (Lines × Place)
  | 0, _, _ => none
  | fuel + 1, l, p =>
    if p.column != indent || p.isAtEnd then some (l, p)
    else
      let indented := p.seesBlank
      let gap :=
        if !literal && l.leading == ['\n'] && !l.indented && !indented then
          (if l.trailing.isEmpty then [' '] else l.trailing)
        else l.leading ++ l.trailing
      let (line, p) := p.takeWhile (!isBreak ·)
      let (leading, p) := p.takeBreak
      match breaks (some indent) (p.rest.length + 1) 0 [] p with
      | none => none
      | some (_, trailing, p) =>
        lines literal indent fuel ⟨l.text ++ gap ++ line, leading, trailing, indented⟩ p

/-- Reads a block scalar from its indicator on. `outer` is the indentation around it, if any. -/
def read (literal : Bool) (outer : Option Nat) (p : Place) : Option (String × Place) := do
  let start ← start? p.skip
  let p := (start.place.skipWhile isBlank).skipComment
  if !p.endsLine then none
  let p := p.skipBreak
  let fuel := p.rest.length + 1
  let known := start.increment.map (outer.getD 0 + ·)
  let (widest, trailing, p) ← breaks known fuel 0 [] p
  let least := max 1 (match outer with
    | some n => n + 1
    | none => 0)
  let indent := known.getD (max widest least)
  let (l, p) ← lines literal indent fuel { trailing := trailing } p
  let tail :=
    match start.chomp with
    | .clip => l.leading
    | .keep => l.leading ++ l.trailing
    | .strip => []
  pure (String.ofList (l.text ++ tail), p)

end Block

end Choreo.Yaml
