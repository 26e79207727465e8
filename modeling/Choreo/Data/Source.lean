import Choreo.Data.Error

/-!
# Reading from a source

A decoder is written once, over any `Source`: a form in which a value can be at hand, with its own
rules for what counts as a number, a text or a name. A list or a map is read up to where its text
ends or breaks off, so a decoder meets the faults of a text in the order in which they stand in it.
-/

namespace Choreo

/-- The items of a list, and whether its text goes on to its end. -/
structure Items (σ : Type) where
  items : List σ
  closing : Except DecodeError Unit := .ok ()

/-- The entries of a map, and whether its text goes on to its end. -/
structure Entries (σ : Type) where
  entries : List (Key × σ)
  closing : Except DecodeError Unit := .ok ()

inductive Shape (σ : Type)
  | items (list : Items σ)
  | entries (map : Entries σ)
  /-- Nothing at all, which stands for an empty list and an empty map. -/
  | blank
  | other (found : Found)

/-- One alternative of several: its name and what it holds. -/
structure Choice (σ : Type) where
  name : Key
  content : Option σ := none
  closing : Except DecodeError Unit := .ok ()

class Source (σ : Type) where
  single : σ → Except DecodeError Single
  /-- A natural number below a bound, under the name of its type. -/
  natural : Nat → String → σ → Except DecodeError Nat
  flag : σ → Except DecodeError Bool
  text : σ → Except DecodeError String
  isNull : σ → Except DecodeError Bool
  unit : σ → Except DecodeError Unit
  shape : σ → Except DecodeError (Shape σ)
  /-- The name of one of several records, held in a field of it. -/
  name : σ → Except DecodeError Key
  /-- An alternative that mostly stands alone. -/
  variant : σ → Except DecodeError (Choice σ)
  /-- An alternative in the form of a map with one entry. -/
  choice : σ → Except DecodeError (Choice σ)
  /-- Whether a record may be written as the list of its fields. -/
  positional : Bool
  /-- What is wrong with a list of `total` items of which `taken` are expected. -/
  surplus : (taken total : Nat) → DecodeError
  /-- The plain value, for a reading that comes later. -/
  buffer : σ → Except DecodeError Value

/-- Things that can be read from any source. -/
class Decode (α : Type) where
  decode : {σ : Type} → [Source σ] → σ → Except DecodeError α

export Decode (decode)

namespace Source

variable {σ : Type} [Source σ]

def items (expected : String) (s : σ) : Except DecodeError (Items σ) := do
  match ← shape s with
  | .items list => pure list
  | .blank => pure ⟨[], .ok ()⟩
  | .entries _ => throw (.wrongType .record expected)
  | .other found => throw (.wrongType found expected)

def entries (expected : String) (s : σ) : Except DecodeError (Entries σ) := do
  match ← shape s with
  | .entries map => pure map
  | .blank => pure ⟨[], .ok ()⟩
  | .items _ => throw (.wrongType .list expected)
  | .other found => throw (.wrongType found expected)

def list {α : Type} (item : σ → Except DecodeError α) (s : σ) : Except DecodeError (List α) := do
  let list ← items "a sequence" s
  let read ← list.items.mapM item
  list.closing
  pure read

def optional {α : Type} (content : σ → Except DecodeError α) (s : σ) :
    Except DecodeError (Option α) := do
  if ← isNull s then pure none else some <$> content s

/-- A 32-bit count. -/
def word32 (s : σ) : Except DecodeError UInt32 := UInt32.ofNat <$> natural UInt32.size "u32" s

/-- A 64-bit count. -/
def word64 (s : σ) : Except DecodeError UInt64 := UInt64.ofNat <$> natural UInt64.size "u64" s

/-- Which of the known names is meant: by its text, or by its place among them. -/
def known (names : List String) : Key → Except DecodeError (Fin names.length)
  | .text name =>
    match names.finIdxOf? name with
    | some place => pure place
    | none => throw (.unknownVariant name names)
  | .index place =>
    if h : place < names.length then pure ⟨place, h⟩
    else
      throw (.wrongValue (.integer place) ("variant index 0 <= i < " ++ toString names.length))
  | .unreadable => throw .malformed

/-- A value of an enumeration, given with the texts of its values. -/
def oneOf {α : Type} (nameOf : α → String) (all : List α) (s : σ) : Except DecodeError α := do
  let choice ← variant s
  let place ← known (all.map nameOf) choice.name
  if let some content := choice.content then unit content
  choice.closing
  pure (all.get ⟨place.val, by simpa using place.isLt⟩)

end Source

/-- A field of a record: how its value goes into what has been read of the record so far. -/
structure Field (σ α : Type) where
  name : String
  needed : Bool
  read : σ → α → Except DecodeError α

namespace Field

variable {σ α β : Type}

def required (name : String) (read : σ → Except DecodeError β) (store : β → α → α) : Field σ α :=
  ⟨name, true, fun s a => (store · a) <$> read s⟩

/-- A field that may be left out, and then keeps what the blank record has. -/
def optional (name : String) (read : σ → Except DecodeError β) (store : β → α → α) : Field σ α :=
  ⟨name, false, fun s a => (store · a) <$> read s⟩

end Field

/-- A record: its name, its fields in declared order, and the record with nothing read. -/
structure Schema (σ α : Type) where
  name : String
  fields : List (Field σ α)
  blank : α

namespace Schema

variable {σ α : Type}

/-- What messages call the record. -/
def title (r : Schema σ α) : String := "struct " ++ r.name

/-- The field that an entry is for. Entries for no field are passed over. -/
def field? (r : Schema σ α) : Key → Except DecodeError (Option (Field σ α))
  | .text name => pure (r.fields.find? (·.name == name))
  | .index place => pure r.fields[place]?
  | .unreadable => throw .malformed

/-- Reads one entry, given the names of the fields read before it. -/
def readEntry (r : Schema σ α) (progress : List String × α) (entry : Key × σ) :
    Except DecodeError (List String × α) := do
  match ← r.field? entry.1 with
  | none => pure progress
  | some field =>
    if field.name ∈ progress.1 then throw (.duplicateField field.name)
    let read ← field.read entry.2 progress.2
    pure (field.name :: progress.1, read)

/-- The first field that had to be there and was not. -/
def missing? (r : Schema σ α) (seen : List String) : Option String :=
  (r.fields.find? fun field => field.needed && !(field.name ∈ seen)).map (·.name)

def readEntries (r : Schema σ α) (map : Entries σ) : Except DecodeError α := do
  let (seen, read) ← map.entries.foldlM r.readEntry ([], r.blank)
  map.closing
  match r.missing? seen with
  | some name => throw (.missingField name)
  | none => pure read

/-- Reads the fields one after another from a list without names, of which `taken` are done. -/
def readPlaces (r : Schema σ α) (list : Items σ) :
    List (Field σ α) → List σ → Nat → α → Except DecodeError (List σ × α)
  | [], rest, _, a => pure (rest, a)
  | _ :: _, [], taken, _ => do
    list.closing
    throw (.wrongLength taken (r.title ++ " with " ++ elementCount r.fields.length))
  | field :: fields, s :: rest, taken, a => do
    let a ← field.read s a
    readPlaces r list fields rest (taken + 1) a

def readItems [Source σ] (r : Schema σ α) (list : Items σ) : Except DecodeError α := do
  let (rest, read) ← r.readPlaces list r.fields list.items 0 r.blank
  if !rest.isEmpty then throw (Source.surplus σ r.fields.length list.items.length)
  list.closing
  pure read

/-- A record is a map or, where the source allows it, a list of all its fields in order. -/
def read [Source σ] (r : Schema σ α) (s : σ) : Except DecodeError α := do
  match ← Source.shape s with
  | .entries map => r.readEntries map
  | .items list =>
    if Source.positional σ then r.readItems list else throw (.wrongType .list r.title)
  | .blank => r.readEntries ⟨[], .ok ()⟩
  | .other found => throw (.wrongType found r.title)

end Schema

namespace Value

/-- A plain value as a source. -/
instance : Source Value where
  single
    | .integer negative n => pure (Float32.ofInt (signed negative n))
    | .real x => pure (Double.narrow x)
    | v => throw (.wrongType v.found "f32")
  natural bound name
    | v@(.integer negative n) =>
      if (!negative || n = 0) && n < bound then pure n else throw (.wrongValue v.found name)
    | v => throw (.wrongType v.found name)
  flag
    | .flag b => pure b
    | v => throw (.wrongType v.found "a boolean")
  text
    | .text s => pure s
    | v => throw (.wrongType v.found "a string")
  isNull
    | .null => pure true
    | _ => pure false
  unit
    | .null | .record [] => pure ()
    | v => throw (.wrongType v.found "unit")
  shape
    | .list items => pure (.items ⟨items, .ok ()⟩)
    | .record entries => pure (.entries ⟨entries, .ok ()⟩)
    | v => pure (.other v.found)
  name
    | .text s => pure (.text s)
    | .integer false n => pure (.index n)
    | v => throw (.wrongType v.found "variant identifier")
  variant
    | .text s => pure ⟨.text s, none, .ok ()⟩
    | .record [(key, v)] => pure ⟨key, some v, .ok ()⟩
    | .record _ => throw (.wrongValue .record "map with a single key")
    | v => throw (.wrongType v.found "string or map")
  choice
    | .text s => pure ⟨.text s, none, .ok ()⟩
    | .record [(key, v)] => pure ⟨key, some v, .ok ()⟩
    | .record _ => throw (.wrongValue .record "map with a single key")
    | v => throw (.wrongType v.found "string or map")
  positional := true
  surplus taken total := .wrongLength total (elementCount taken ++ " in sequence")
  buffer v := pure v

end Value

end Choreo
