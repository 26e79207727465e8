import Choreo.Yaml.Scalar
import Choreo.Yaml.Tag

/-!
# Tokens of a YAML text

Indentation becomes tokens that open and close blocks. That something is a key shows only at the colon
behind it: until then the place where it began is remembered, and at the colon the tokens for the key,
and for the block it may open, are put in there.
-/

namespace Choreo.Yaml

inductive Token
  | version (major minor : Nat)
  | handle (name : String) (stem : List UInt8)
  | documentStart
  | documentEnd
  | blockList
  | blockRecord
  | blockEnd
  | flowList
  | flowListEnd
  | flowRecord
  | flowRecordEnd
  /-- The dash before an item of a block list. -/
  | entry
  | comma
  | key
  | value
  | reference (name : String)
  | anchor (name : String)
  | tag (handle : String) (suffix : List UInt8)
  | scalar (style : Style) (text : String)
  deriving DecidableEq

/-- Where a key may have begun. -/
structure KeyStart where
  token : Nat
  index : Nat
  line : Nat
  column : Nat
  /-- Nothing but a key can stand here. -/
  required : Bool

structure Lexer where
  place : Place
  tokens : Array Token := #[]
  /-- The columns of the open blocks, innermost first. -/
  blocks : List Nat := []
  /-- For each level of flow collections, innermost first, and below them for the blocks. -/
  keys : List (Option KeyStart) := [none]
  keyAllowed : Bool := true

namespace Lexer

def inFlow (l : Lexer) : Bool := 1 < l.keys.length

def push (l : Lexer) (t : Token) : Lexer := { l with tokens := l.tokens.push t }

/-- The column of the innermost open block. -/
def indent (l : Lexer) : Option Nat := l.blocks.head?

def isWithin (l : Lexer) (column : Nat) : Bool :=
  match l.indent with
  | some n => n < column
  | none => true

/-- A key must end on the line on which it begins, and within 1024 bytes. -/
def keyReach : Nat := 1024

def isStale (l : Lexer) (k : KeyStart) : Bool :=
  k.line < l.place.line || k.index + keyReach < l.place.index

/-- Gives up the keys that began too far back. -/
def dropStale (l : Lexer) : Option Lexer :=
  if l.keys.any fun k => k.any fun k => l.isStale k && k.required then none
  else some { l with keys := l.keys.map (·.filter (!l.isStale ·)) }

/-- Gives up the key that may have begun on this level. -/
def dropKey (l : Lexer) : Option Lexer :=
  match l.keys with
  | some k :: rest => if k.required then none else some { l with keys := none :: rest }
  | _ => some l

/-- Remembers that a key may begin here. -/
def markKey (l : Lexer) : Option Lexer :=
  if !l.keyAllowed then some l
  else do
    let l ← l.dropKey
    let p := l.place
    let start : KeyStart :=
      { token := l.tokens.size, index := p.index, line := p.line, column := p.column
        required := !l.inFlow && l.indent == some p.column }
    pure { l with keys := some start :: l.keys.tail }

/-- Opens a block at a column further in, before the given token. -/
def openBlock (l : Lexer) (column at_ : Nat) (t : Token) : Lexer :=
  if l.inFlow || !l.isWithin column then l
  else { l with blocks := column :: l.blocks, tokens := l.tokens.insertIdxIfInBounds at_ t }

/-- Closes the blocks that are further in than a column, or all of them. -/
def closeBlocks (l : Lexer) (column : Option Nat) : Lexer :=
  if l.inFlow then l
  else
    let isOpen (n : Nat) : Bool :=
      match column with
      | some c => c < n
      | none => true
    let closed := l.blocks.takeWhile isOpen
    { l with
      blocks := l.blocks.dropWhile isOpen
      tokens := l.tokens ++ Array.replicate closed.length .blockEnd }

/-! ## Between tokens -/

/-- Passes blanks, comments and breaks. A tab is a blank only where no key may begin. A byte order mark
may begin any line and takes up a column of it. -/
def skipGap : Nat → Lexer → Lexer
  | 0, l => l
  | fuel + 1, l =>
    let p := if l.place.column == 0 && l.place.sees byteOrderMark then l.place.skip else l.place
    let tabs := l.inFlow || !l.keyAllowed
    let p := (p.skipWhile fun c => c == ' ' || (tabs && c == '\t')).skipComment
    if p.seesBreak then
      skipGap fuel { l with place := p.skipBreak, keyAllowed := l.keyAllowed || !l.inFlow }
    else { l with place := p }

/-! ## Directives, anchors and tags -/

/-- A number of a version has nine digits at most. -/
def versionNumber? (p : Place) : Option (Nat × Place) :=
  let (digits, p) := p.takeWhile isDigit
  if digits.isEmpty || 9 < digits.length then none
  else some (digits.foldl (fun n c => 10 * n + (c.toNat - '0'.toNat)) 0, p)

def isTagChar (c : Char) : Bool := isWord c || ";/?:@&=+$.%!~*'()".toList.contains c

/-- These may stand only in a tag that is written out. -/
def isWrittenOut (c : Char) : Bool := c == ',' || c == '[' || c == ']'

def escapedByte? (p : Place) : Option (Nat × Place) :=
  match p.rest with
  | '%' :: a :: b :: _ => do pure (16 * (← hexValue? a) + (← hexValue? b), p.skipMany 3)
  | _ => none

/-- How many bytes follow the first byte of a character. -/
def continuation? (first : Nat) : Option Nat :=
  if first < 0x80 then some 0
  else if first / 0x20 == 6 then some 1
  else if first / 0x10 == 14 then some 2
  else if first / 8 == 30 then some 3
  else none

/-- Bytes in hexadecimal: one that can begin a character, and as many as it asks for. Whether they are
that character is not looked at. -/
def escapedBytes? (p : Place) : Option (List UInt8 × Place) := do
  let (first, p) ← escapedByte? p
  let count ← continuation? first
  (List.range count).foldlM (fun (bytes, p) _ => do
    let (next, p) ← escapedByte? p
    if next / 0x40 != 2 then none
    pure (bytes ++ [UInt8.ofNat next], p)) ([UInt8.ofNat first], p)

/-- Reads the bytes of a tag, last one first. -/
def tagText (writtenOut : Bool) : Nat → List UInt8 → Place → Option (List UInt8 × Place)
  | 0, _, _ => none
  | fuel + 1, acc, p =>
    match p.head? with
    | some c =>
      if c == '%' then
        match escapedBytes? p with
        | some (bytes, p) => tagText writtenOut fuel (bytes.reverse ++ acc) p
        | none => none
      else if isTagChar c || (writtenOut && isWrittenOut c) then
        tagText writtenOut fuel (c.toUInt8 :: acc) p.skip
      else some (acc, p)
    | none => some (acc, p)

/-- Reads the text of a tag behind what has been read of it, and refuses an empty one. -/
def tagSuffix? (writtenOut : Bool) (before : List Char) (p : Place) :
    Option (List UInt8 × Place) := do
  let start := (before.drop 1).reverse.map Char.toUInt8
  let (bytes, p) ← tagText writtenOut (p.rest.length + 1) start p
  if before.isEmpty && bytes.isEmpty then none
  pure (Tag.upToZero bytes.reverse, p)

/-- A handle is a word between exclamation marks, or one or two marks alone. The second mark may turn
out to be missing, and then it is no handle yet. -/
def handle? (p : Place) : Option (List Char × Place) :=
  if !p.sees '!' then none
  else
    let (word, p) := p.skip.takeWhile isWord
    if p.sees '!' then some ('!' :: word ++ ['!'], p.skip) else some ('!' :: word, p)

def directive? (p : Place) : Option (Token × Place) := do
  let (name, p) := p.skip.takeWhile isWord
  if name.isEmpty || !p.endsWord 0 then none
  let q := p.skipWhile isBlank
  let (token, p) ←
    match String.ofList name with
    | "YAML" => do
      let (major, q) ← versionNumber? q
      if !q.sees '.' then none
      let (minor, q) ← versionNumber? q.skip
      pure (Token.version major minor, q)
    | "TAG" => do
      let (handle, q) ← handle? q
      if handle != ['!'] && handle.getLast? != some '!' then none
      if !q.seesBlank then none
      let (stem, q) ← tagSuffix? true [] (q.skipWhile isBlank)
      if !q.endsWord 0 then none
      pure (Token.handle (String.ofList handle) stem, q)
    | _ => none
  let p := (p.skipWhile isBlank).skipComment
  if !p.endsLine then none
  pure (token, p.skipBreak)

/-- The name of an anchor or of an alias. -/
def name? (p : Place) : Option (String × Place) :=
  let (name, p) := p.skip.takeWhile isWord
  let isFollowed := p.looks 0 true fun c =>
    isBlank c || isBreak c || "?:,]\x7d%@`".toList.contains c
  if name.isEmpty || !isFollowed then none
  else some (String.ofList name, p)

/-- A handle without its second mark belongs to the text of the tag; a mark alone is the tag. -/
def tag? (inFlow : Bool) (p : Place) : Option (Token × Place) := do
  let (handle, suffix, p) ←
    if p.looks 1 false (· == '<') then do
      let (suffix, p) ← tagSuffix? true [] (p.skipMany 2)
      if !p.sees '>' then none
      pure ("", suffix, p.skip)
    else do
      let (handle, p) ← handle? p
      if 1 < handle.length && handle.getLast? == some '!' then do
        let (suffix, p) ← tagSuffix? false [] p
        pure (String.ofList handle, suffix, p)
      else do
        let (suffix, p) ← tagSuffix? false handle p
        pure (if suffix.isEmpty then ("", Tag.bare.bytes, p) else ("!", suffix, p))
  if !p.endsWord 0 && !(inFlow && p.sees ',') then none
  pure (.tag handle suffix, p)

/-! ## One token -/

def advance (l : Lexer) (n : Nat) (t : Token) : Lexer :=
  { l with place := l.place.skipMany n, tokens := l.tokens.push t }

/-- Something that closes all blocks: a directive or a document mark. -/
def outermost (l : Lexer) : Option Lexer := do
  let l ← (l.closeBlocks none).dropKey
  pure { l with keyAllowed := false }

def blockEntry (l : Lexer) : Option Lexer := do
  if !l.inFlow && !l.keyAllowed then none
  let l ← (l.openBlock l.place.column l.tokens.size .blockList).dropKey
  pure ({ l with keyAllowed := true }.advance 1 .entry)

def explicitKey (l : Lexer) : Option Lexer := do
  if !l.inFlow && !l.keyAllowed then none
  let l ← (l.openBlock l.place.column l.tokens.size .blockRecord).dropKey
  pure ({ l with keyAllowed := !l.inFlow }.advance 1 .key)

/-- A value: behind a key that has been waiting for it, or by itself. -/
def valueMark (l : Lexer) : Option Lexer :=
  match l.keys with
  | some k :: rest =>
    let l := { l with tokens := l.tokens.insertIdxIfInBounds k.token .key }
    let l := l.openBlock k.column k.token .blockRecord
    some ({ l with keys := none :: rest, keyAllowed := false }.advance 1 .value)
  | _ =>
    if !l.inFlow && !l.keyAllowed then none
    else
      let l := l.openBlock l.place.column l.tokens.size .blockRecord
      some ({ l with keyAllowed := !l.inFlow }.advance 1 .value)

def openFlow (l : Lexer) (t : Token) : Option Lexer := do
  let l ← l.markKey
  pure ({ l with keys := none :: l.keys, keyAllowed := true }.advance 1 t)

def closeFlow (l : Lexer) (t : Token) : Option Lexer := do
  let l ← l.dropKey
  let keys := if l.inFlow then l.keys.tail else l.keys
  pure ({ l with keys := keys, keyAllowed := false }.advance 1 t)

/-- A token that may be, or begin, a key. -/
def word (l : Lexer) (read : Place → Option (Token × Place)) : Option Lexer := do
  let l ← l.markKey
  let (t, p) ← read l.place
  pure { l with place := p, keyAllowed := false, tokens := l.tokens.push t }

def blockScalar (l : Lexer) (literal : Bool) : Option Lexer := do
  let l ← l.dropKey
  let (text, p) ← Block.read literal l.indent l.place
  let style := if literal then Style.literal else .folded
  pure { l with place := p, keyAllowed := true, tokens := l.tokens.push (.scalar style text) }

def plainScalar (l : Lexer) : Option Lexer := do
  let l ← l.markKey
  let indent := match l.indent with
    | some n => n + 1
    | none => 0
  let (text, broken, p) ← Plain.read l.inFlow indent (l.place.rest.length + 1) [] {} l.place
  pure { l with place := p, keyAllowed := broken, tokens := l.tokens.push (.scalar .plain text) }

/-- The characters with which no plain scalar begins. -/
def isIndicator (c : Char) : Bool := "-?:,[]\x7b\x7d#&*!|>'\"%@`".toList.contains c

def beginsPlain (l : Lexer) (c : Char) : Bool :=
  let p := l.place
  !(isBlank c || isBreak c || isIndicator c) ||
    (c == '-' && !p.looks 1 false isBlank) ||
    (!l.inFlow && (c == '?' || c == ':') && !p.endsWord 1)

/-- Reads the token that begins with `c`. -/
def token (l : Lexer) (c : Char) : Option Lexer :=
  let p := l.place
  if p.column == 0 && c == '%' then do
    let l ← l.outermost
    let (t, p) ← directive? l.place
    pure { l with place := p, tokens := l.tokens.push t }
  else if p.seesMark '-' then (·.advance 3 .documentStart) <$> l.outermost
  else if p.seesMark '.' then (·.advance 3 .documentEnd) <$> l.outermost
  else
    match c with
    | '[' => l.openFlow .flowList
    | '\x7b' => l.openFlow .flowRecord
    | ']' => l.closeFlow .flowListEnd
    | '\x7d' => l.closeFlow .flowRecordEnd
    | ',' => do
      let l ← l.dropKey
      pure ({ l with keyAllowed := true }.advance 1 .comma)
    | '*' => l.word fun p => (name? p).map fun (name, p) => (.reference name, p)
    | '&' => l.word fun p => (name? p).map fun (name, p) => (.anchor name, p)
    | '!' => l.word (tag? l.inFlow)
    | '\'' => l.word fun p => (Quoted.read '\'' p).map fun (text, p) => (.scalar .single text, p)
    | '"' => l.word fun p => (Quoted.read '"' p).map fun (text, p) => (.scalar .double text, p)
    | _ =>
      if c == '-' && p.endsWord 1 then l.blockEntry
      else if c == '?' && (l.inFlow || p.endsWord 1) then l.explicitKey
      else if c == ':' && (l.inFlow || p.endsWord 1) then l.valueMark
      else if c == '|' && !l.inFlow then l.blockScalar true
      else if c == '>' && !l.inFlow then l.blockScalar false
      else if l.beginsPlain c then l.plainScalar
      else none

/-- Reads tokens up to the end of the text; each takes at least one character. -/
def run : Nat → Lexer → Option (Array Token)
  | 0, _ => none
  | fuel + 1, l => do
    let l ← (skipGap (l.place.rest.length + 1) l).dropStale
    let l := l.closeBlocks (some l.place.column)
    match l.place.head? with
    | some c => run fuel (← l.token c)
    | none =>
      let l ← (l.closeBlocks none).dropKey
      pure l.tokens

end Lexer

/-- The tokens of a text, unless it breaks a rule. -/
def tokens? (text : String) : Option (Array Token) :=
  let cs := text.toList
  if cs.all isAllowed then Lexer.run (cs.length + 2) { place := { rest := cs } } else none

end Choreo.Yaml
