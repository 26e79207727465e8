import Choreo.Data.Source
import Choreo.Yaml.Resolution
import Choreo.Yaml.Tree

/-!
# Reading from YAML

A YAML tree as a source. What a scalar means depends on what is asked for: where a text is expected
every scalar is one, and a number must be written plainly. A tag of its own names an alternative, and
stands before nothing else that is kept as a plain value.
-/

namespace Choreo.Yaml.Tree

open Resolution

def fail {α : Type} : Except DecodeError α := .error .malformed

def orFail {α : Type} : Option α → Except DecodeError α
  | some a => .ok a
  | none => fail

/-- A plain integer as a value. Past 64 bits there is a range that stands for nothing. -/
def integerValue (i : Integer) : Option (Except DecodeError Value) :=
  if i.fits 64 then some (.ok (.integer i.negative i.magnitude))
  else if i.isRepresentable then some fail
  else none

/-- What a plain scalar means by itself. -/
def plainValue (s : String) : Except DecodeError Value :=
  if s.isEmpty || isNull s then .ok .null
  else
    match flag? s with
    | some b => .ok (.flag b)
    | none =>
      match (integer? s).bind integerValue with
      | some v => v
      | none =>
        if hasNeedlessZero s.toList then .ok (.text s)
        else
          match real? s with
          | some x => .ok (.real x)
          | none => .ok (.text s)

/-- A scalar as a value. The standard tags force its kind, and a local tag that is no text forces
nothing. -/
def scalarValue (tag : Option Tag) (style : Style) (s : String) : Except DecodeError Value :=
  let untagged := if style = .plain then plainValue s else .ok (.text s)
  match tag with
  | none => untagged
  | some tag =>
    if tag.name?.isSome then fail
    else if tag == .standard "bool" then orFail ((flag? s).map .flag)
    else if tag == .standard "int" then orFail ((integer? s).bind integerValue) >>= id
    else if tag == .standard "float" then orFail ((real? s).map .real)
    else if tag == .standard "null" then (if isNull s then .ok .null else fail)
    else if tag.isLocal then untagged
    else .ok (.text s)

/-- Numbers and flags are plain, or literal blocks under their own tag. -/
def isBare (expected : String) (tag : Option Tag) (style : Style) : Bool :=
  style = .plain || (style = .literal && tag == some (.standard expected))

def keyOf : Value → Key
  | .text s => .text s
  | .integer negative n => if negative then .unreadable else .index n
  | _ => .unreadable

/-- The plain value that a node stands for, if there is one. -/
def valueOf (targets : Outline.Targets) : (depth : Nat) → Outline → Except DecodeError Value
  | depth, o =>
    match o.resolve targets, depth with
    | some (.scalar marks style text), _ => scalarValue marks.tag style text
    | some (.list marks items), depth + 1 => do
      if (localName? marks.tag).isSome then fail
      let read ← items.mapM (valueOf targets depth)
      pure (.list read)
    | some (.record marks entries), depth + 1 => do
      if (localName? marks.tag).isSome then fail
      let read ← entries.mapM fun (key, value) => do
        let key ← valueOf targets depth key
        let value ← valueOf targets depth value
        pure (keyOf key, value)
      pure (.record read)
    | _, _ => fail
  termination_by depth => depth

def toValue (t : Tree) : Except DecodeError Value :=
  match t.root with
  | none => .ok .null
  | some o => valueOf t.targets t.depth o

/-- Every scalar can be a key. -/
def key (t : Tree) : Key :=
  match t.face with
  | .scalar _ _ s => .text s
  | _ => .unreadable

def isEmptyScalar (style : Style) (s : String) : Bool := style = .plain && s.isEmpty

def shape (t : Tree) : Except DecodeError (Shape Tree) :=
  match t.face with
  | .blank => pure .blank
  | .scalar _ style s => if isEmptyScalar style s then pure .blank else fail
  | .list _ items => pure (.items ⟨items, .ok ()⟩)
  | .record _ entries => pure (.entries ⟨entries.map fun (k, t) => (k.key, t), .ok ()⟩)
  | .unreadable => fail

/-- Whether a scalar stands for nothing. Under the tag of null it has to. -/
def isAbsent (tag : Option Tag) (style : Style) (s : String) : Except DecodeError Bool :=
  if style ≠ .plain then .ok false
  else
    match tag with
    | none => .ok (s.isEmpty || isNull s)
    | some tag =>
      if tag == .standard "null" then (if isNull s then .ok true else fail) else .ok false

/-- A name by itself, or as a tag before nothing. -/
def variant (t : Tree) : Except DecodeError (Choice Tree) :=
  match t.face with
  | .scalar tag style s =>
    match localName? tag with
    | some name =>
      .ok ⟨.text name, some { t with root := some (.scalar {} style s) }, .ok ()⟩
    | none => .ok ⟨.text s, none, .ok ()⟩
  | _ => fail

def choice (t : Tree) : Except DecodeError (Choice Tree) :=
  match t.face with
  | .record tag ((k, content) :: rest) =>
    if (localName? tag).isSome then fail
    else .ok ⟨k.key, some content, if rest.isEmpty then .ok () else fail⟩
  | _ => fail

/-- Reads a scalar by its tag, its style and its text. -/
def scalar {α : Type} (t : Tree) (read : Option Tag → Style → String → Except DecodeError α) :
    Except DecodeError α :=
  match t.face with
  | .scalar tag style s => read tag style s
  | _ => fail

instance : Source Tree where
  single t := t.scalar fun tag style s =>
    if isBare "float" tag style then Double.narrow <$> orFail (real? s) else fail
  natural bound _ t := t.scalar fun tag style s => do
    let n ← if isBare "int" tag style then orFail (natural? s) else fail
    if n < bound then pure n else fail
  flag t := t.scalar fun tag style s => if isBare "bool" tag style then orFail (flag? s) else fail
  text t := t.scalar fun _ _ s => .ok s
  isNull t :=
    match t.face with
    | .blank => .ok true
    | .scalar tag style s => isAbsent tag style s
    | _ => .ok false
  unit t := t.scalar fun tag style s => do if ← isAbsent tag style s then pure () else fail
  shape := shape
  name t := t.scalar fun _ _ s => .ok (.text s)
  variant := variant
  choice := choice
  positional := false
  surplus _ _ := .malformed
  buffer := toValue

/-- Reads a text as one thing, of which parts may be passed over. -/
def read? {α : Type} [Decode α] (source : String) : Option α := do
  (decode (← ofText? source)).toOption

/-- Reads a text as one thing to which every part belongs. -/
def readWhole? {α : Type} [Decode α] (source : String) : Option α := do
  let tree ← ofText? source
  if !tree.isBounded then none
  (decode tree).toOption

end Choreo.Yaml.Tree
