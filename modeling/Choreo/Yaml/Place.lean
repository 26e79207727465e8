import Choreo.Number.Decimal

/-!
# Places in a YAML text

The characters a text is made of, and a place in it: what follows, and where that stands.
-/

namespace Choreo.Yaml

def isBlank (c : Char) : Bool := c == ' ' || c == '\t'

def isBreak (c : Char) : Bool :=
  c == '\n' || c == '\r' || c.val == 0x85 || c.val == 0x2028 || c.val == 0x2029

/-- The characters of anchors, handles and directive names. -/
def isWord (c : Char) : Bool :=
  isDigit c || ('a' ≤ c && c ≤ 'z') || ('A' ≤ c && c ≤ 'Z') || c == '_' || c == '-'

/-- Control characters, surrogates and two noncharacters may not stand in a text. -/
def isAllowed (c : Char) : Bool :=
  let n := c.val
  n == 0x09 || n == 0x0a || n == 0x0d || (0x20 ≤ n && n ≤ 0x7e) || n == 0x85 ||
    (0xa0 ≤ n && n ≤ 0xd7ff) || (0xe000 ≤ n && n ≤ 0xfffd) || 0x10000 ≤ n

def byteOrderMark : Char := Char.ofNat 0xfeff

structure Place where
  rest : List Char
  /-- The number of bytes before. -/
  index : Nat := 0
  line : Nat := 0
  column : Nat := 0

namespace Place

def head? (p : Place) : Option Char := p.rest.head?

def isAtEnd (p : Place) : Bool := p.rest.isEmpty

/-- Whether the character `n` places on is one for which `f` holds; the end counts as `atEnd`. -/
def looks (p : Place) (n : Nat) (atEnd : Bool) (f : Char → Bool) : Bool :=
  match p.rest[n]? with
  | some c => f c
  | none => atEnd

def sees (p : Place) (c : Char) : Bool := p.looks 0 false (· == c)

def seesBlank (p : Place) : Bool := p.looks 0 false isBlank

def seesBreak (p : Place) : Bool := p.looks 0 false isBreak

/-- A break or the end. -/
def endsLine (p : Place) : Bool := p.looks 0 true isBreak

/-- A blank, a break or the end stands `n` places on. -/
def endsWord (p : Place) (n : Nat) : Bool := p.looks n true fun c => isBlank c || isBreak c

def skip (p : Place) : Place :=
  match p.rest with
  | c :: rest => { p with rest := rest, index := p.index + c.utf8Size, column := p.column + 1 }
  | [] => p

def skipMany : Nat → Place → Place
  | 0, p => p
  | n + 1, p => skipMany n p.skip

/-- Passes a line break. Its text is a line feed, or the break itself for the two separators. -/
def takeBreak (p : Place) : List Char × Place :=
  let next (text : List Char) (rest : List Char) (width : Nat) :=
    (text, { p with rest := rest, index := p.index + width, line := p.line + 1, column := 0 })
  match p.rest with
  | '\r' :: '\n' :: rest => next ['\n'] rest 2
  | c :: rest =>
    if c.val == 0x2028 || c.val == 0x2029 then next [c] rest c.utf8Size
    else if isBreak c then next ['\n'] rest c.utf8Size
    else ([], p)
  | [] => ([], p)

def skipBreak (p : Place) : Place := p.takeBreak.2

def skipWhile (p : Place) (f : Char → Bool) : Place :=
  go p.rest p
where
  go : List Char → Place → Place
    | c :: rest, p => if f c then go rest p.skip else p
    | [], p => p

/-- The characters up to the first for which `f` fails. -/
def takeWhile (p : Place) (f : Char → Bool) : List Char × Place :=
  (p.rest.takeWhile f, p.skipWhile f)

/-- A comment goes up to the end of its line. -/
def skipComment (p : Place) : Place := if p.sees '#' then p.skipWhile (!isBreak ·) else p

/-- Three of the character at the beginning of a line, standing alone, open or close a document. -/
def seesMark (p : Place) (c : Char) : Bool :=
  p.column == 0 && p.rest.take 3 == [c, c, c] && p.endsWord 3

def seesDocumentMark (p : Place) : Bool := p.seesMark '-' || p.seesMark '.'

end Place

end Choreo.Yaml
