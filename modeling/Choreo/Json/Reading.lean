import Choreo.Data.Source
import Choreo.Json.Tree

/-!
# Reading from JSON

A JSON tree as a source. An alternative is a text, or a map with one entry; anything else in its place
counts as malformed, and so does a list that is too long for a record.
-/

namespace Choreo.Json

def found : Json → Except DecodeError Found
  | null => pure .null
  | flag b => pure (.flag b)
  | integer n => pure (.integer n)
  | real x => pure (.real x)
  | text s => pure (.text s)
  | list .. => pure .list
  | record .. => pure .record
  | unreadable | broken => throw .malformed

def refuse {α : Type} (j : Json) (expected : String) : Except DecodeError α := do
  throw (.wrongType (← j.found) expected)

def closing (closed : Bool) : Except DecodeError Unit :=
  if closed then pure () else throw .malformed

def key : Option String → Key
  | some name => .text name
  | none => .unreadable

mutual

/-- The plain value, if all of it can be read. -/
def toValue : Json → Except DecodeError Value
  | null => pure .null
  | flag b => pure (.flag b)
  | integer n => pure (.ofInt n)
  | real x => pure (.real x)
  | text s => pure (.text s)
  | list items closed => do
    let read ← itemsToValues items
    closing closed
    pure (.list read)
  | record entries closed => do
    let read ← entriesToValues entries
    closing closed
    pure (.record read)
  | unreadable | broken => throw .malformed

def itemsToValues : List Json → Except DecodeError (List Value)
  | [] => pure []
  | j :: rest => do
    let v ← j.toValue
    pure (v :: (← itemsToValues rest))

def entriesToValues : List (Option String × Json) → Except DecodeError (List (Key × Value))
  | [] => pure []
  | (none, _) :: _ => throw .malformed
  | (some name, j) :: rest => do
    let v ← j.toValue
    pure ((.text name, v) :: (← entriesToValues rest))

end

def choice : Json → Except DecodeError (Choice Json)
  | text s => pure ⟨.text s, none, .ok ()⟩
  | record ((name, content) :: rest) closed =>
    pure ⟨key name, some content, closing (rest.isEmpty && closed)⟩
  | _ => throw .malformed

instance : Source Json where
  single
    | integer n => pure (Float32.ofInt n)
    | real x => pure (Double.narrow x)
    | j => j.refuse "f32"
  natural bound name
    | integer n =>
      if 0 ≤ n ∧ n < bound then pure n.toNat else throw (.wrongValue (.integer n) name)
    | j => j.refuse name
  flag
    | flag b => pure b
    | j => j.refuse "a boolean"
  text
    | text s => pure s
    | j => j.refuse "a string"
  isNull
    | null => pure true
    | _ => pure false
  unit
    | null => pure ()
    | j => j.refuse "unit"
  shape
    | list items closed => pure (.items ⟨items, closing closed⟩)
    | record entries closed =>
      pure (.entries ⟨entries.map fun (name, j) => (key name, j), closing closed⟩)
    | j => do pure (.other (← j.found))
  name
    | text s => pure (.text s)
    | j => j.refuse "variant identifier"
  variant := choice
  choice := choice
  positional := true
  surplus _ _ := .malformed
  buffer := toValue

/-- Reads a whole text as one thing. -/
def read {α : Type} [Decode α] (source : String) : Except DecodeError α := do
  let document := ofText source
  let value ← decode document.root
  if document.complete then pure value else throw .malformed

end Choreo.Json
