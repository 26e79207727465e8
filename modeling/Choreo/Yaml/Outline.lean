import Choreo.Yaml.Token

/-!
# Outline of a YAML document

The tokens of a document, gathered into a tree that still refers to its anchors. A name may be anchored
again; each mark counts the names there are when it is set, and an alias holds the count of its name.
-/

namespace Choreo.Yaml

/-- What stands before a node. -/
structure Marks where
  anchor : Option Nat := none
  tag : Option Tag := none

inductive Outline
  | reference (mark : Nat)
  | scalar (marks : Marks) (style : Style) (text : String)
  | list (marks : Marks) (items : List Outline)
  | record (marks : Marks) (entries : List (Outline × Outline))

namespace Outline

instance : Inhabited Outline := ⟨reference 0⟩

/-- A node that is left out. -/
def empty (marks : Marks) : Outline := scalar marks .plain ""

/-- The tokens that are left, the handles of tags, and the marks of the names seen so far. -/
structure Reader where
  rest : List Token
  handles : List (String × List UInt8) := [("!", Tag.bare.bytes), ("!!", (Tag.standard "").bytes)]
  names : List (String × Nat) := []

namespace Reader

def head? (r : Reader) : Option Token := r.rest.head?

def skip (r : Reader) : Reader := { r with rest := r.rest.tail }

def sees (r : Reader) (t : Token) : Bool := r.head? == some t

/-- Whether the next token is one of these, or there is none. -/
def endsAt (r : Reader) (ts : List Token) : Bool :=
  match r.head? with
  | some t => ts.contains t
  | none => false

def setAnchor (r : Reader) (name : String) : Nat × Reader :=
  let mark := r.names.length
  (mark, { r with names := (name, mark) :: r.names.filter (·.1 != name) })

def anchor? (r : Reader) : Option Nat × Reader :=
  match r.head? with
  | some (.anchor name) =>
    let (mark, r) := r.skip.setAnchor name
    (some mark, r)
  | _ => (none, r)

/-- Reads a tag, and fails where its handle stands for nothing. -/
def tag? (r : Reader) : Option (Option Tag × Reader) :=
  match r.head? with
  | some (.tag "" suffix) => some (some ⟨suffix⟩, r.skip)
  | some (.tag handle suffix) =>
    (r.handles.find? (·.1 == handle)).map fun (_, stem) => (some ⟨stem ++ suffix⟩, r.skip)
  | _ => some (none, r)

/-- Anchor and tag stand in either order. -/
def marks? (r : Reader) : Option (Marks × Reader) := do
  let (anchor, r) := r.anchor?
  let (tag, r) ← r.tag?
  match anchor with
  | some _ => pure (⟨anchor, tag⟩, r)
  | none =>
    if tag.isNone then pure (⟨none, none⟩, r)
    else
      let (anchor, r) := r.anchor?
      pure (⟨anchor, tag⟩, r)

end Reader

/-- The tokens that end a key or a value in a block, and those that end them in flow collections. -/
def blockEnds : List Token := [.key, .value, .blockEnd]

def flowRecordEnds : List Token := [.value, .comma, .flowRecordEnd]

def flowPairEnds : List Token := [.value, .comma, .flowListEnd]

mutual

/-- Reads a node. Blocks are read only where `block` holds, and `indentless` allows the items of a list
to stand no further in than the key they belong to. Every step of fuel takes a token, or comes before
one that does. -/
def node (fuel : Nat) (block indentless : Bool) (r : Reader) : Option (Outline × Reader) :=
  match fuel with
  | 0 => none
  | fuel + 1 =>
    match r.head? with
    | some (.reference name) =>
      (r.names.find? (·.1 == name)).map fun (_, mark) => (reference mark, r.skip)
    | _ => do
      let (marks, r) ← r.marks?
      match r.head? with
      | some (.scalar style text) => pure (scalar marks style text, r.skip)
      | some .flowList => do
        let (items, r) ← flowItems fuel true r.skip
        pure (list marks items, r)
      | some .flowRecord => do
        let (entries, r) ← flowEntries fuel true r.skip
        pure (record marks entries, r)
      | some .blockList =>
        if block then do
          let (items, r) ← blockItems fuel r.skip
          pure (list marks items, r)
        else leftOut marks r
      | some .blockRecord =>
        if block then do
          let (entries, r) ← blockEntries fuel r.skip
          pure (record marks entries, r)
        else leftOut marks r
      | some .entry =>
        if indentless then do
          let (items, r) ← indentlessItems fuel r
          pure (list marks items, r)
        else leftOut marks r
      | _ => leftOut marks r

/-- A node of which there are only the marks. -/
def leftOut (marks : Marks) (r : Reader) : Option (Outline × Reader) :=
  if marks.anchor.isSome || marks.tag.isSome then some (empty marks, r) else none

/-- Items of a block list, up to its end. -/
def blockItems (fuel : Nat) (r : Reader) : Option (List Outline × Reader) :=
  match fuel with
  | 0 => none
  | fuel + 1 =>
    match r.head? with
    | some .entry => do
      let r := r.skip
      let (item, r) ←
        if r.endsAt [.entry, .blockEnd] then some (empty {}, r) else node fuel true false r
      let (rest, r) ← blockItems fuel r
      pure (item :: rest, r)
    | some .blockEnd => some ([], r.skip)
    | _ => none

def indentlessItems (fuel : Nat) (r : Reader) : Option (List Outline × Reader) :=
  match fuel with
  | 0 => none
  | fuel + 1 =>
    match r.head? with
    | some .entry => do
      let r := r.skip
      let (item, r) ←
        if r.endsAt (.entry :: blockEnds) then some (empty {}, r) else node fuel true false r
      let (rest, r) ← indentlessItems fuel r
      pure (item :: rest, r)
    | _ => some ([], r)

/-- Entries of a block record, up to its end. Either half of an entry may be left out, but not the mark of
its key. -/
def blockEntries (fuel : Nat) (r : Reader) : Option (List (Outline × Outline) × Reader) :=
  match fuel with
  | 0 => none
  | fuel + 1 =>
    let half (r : Reader) : Option (Outline × Reader) :=
      if r.endsAt blockEnds then some (empty {}, r) else node fuel true true r
    match r.head? with
    | some .blockEnd => some ([], r.skip)
    | some .key => do
      let (key, r) ← half r.skip
      let (value, r) ← if r.sees .value then half r.skip else some (empty {}, r)
      let (rest, r) ← blockEntries fuel r
      pure ((key, value) :: rest, r)
    | _ => none

/-- Items of a flow list. An item may be a pair without braces; where its key is left out, the token in
the key's place is lost. -/
def flowItems (fuel : Nat) (first : Bool) (r : Reader) : Option (List Outline × Reader) :=
  match fuel with
  | 0 => none
  | fuel + 1 =>
    if r.sees .flowListEnd then some ([], r.skip)
    else if !first && !r.sees .comma then none
    else
      let r := if first then r else r.skip
      if r.sees .key then do
        let r := r.skip
        let (key, r) ←
          if r.endsAt flowPairEnds then some (empty {}, r.skip) else node fuel false false r
        let (value, r) ← flowValue fuel [.comma, .flowListEnd] r
        let (rest, r) ← flowItems fuel false r
        pure (record {} [(key, value)] :: rest, r)
      else if r.sees .flowListEnd then some ([], r.skip)
      else do
        let (item, r) ← node fuel false false r
        let (rest, r) ← flowItems fuel false r
        pure (item :: rest, r)

/-- The value of an entry in a flow collection, which may be left out with or without its mark. -/
def flowValue (fuel : Nat) (ends : List Token) (r : Reader) : Option (Outline × Reader) :=
  match fuel with
  | 0 => none
  | fuel + 1 =>
    if !r.sees .value then some (empty {}, r)
    else if r.skip.endsAt ends then some (empty {}, r.skip)
    else node fuel false false r.skip

/-- Entries of a flow record. A node that is not marked as a key has no value. -/
def flowEntries (fuel : Nat) (first : Bool) (r : Reader) :
    Option (List (Outline × Outline) × Reader) :=
  match fuel with
  | 0 => none
  | fuel + 1 =>
    if r.sees .flowRecordEnd then some ([], r.skip)
    else if !first && !r.sees .comma then none
    else
      let r := if first then r else r.skip
      if r.sees .key then do
        let r := r.skip
        let (key, r) ←
          if r.endsAt flowRecordEnds then some (empty {}, r) else node fuel false false r
        let (value, r) ← flowValue fuel [.comma, .flowRecordEnd] r
        let (rest, r) ← flowEntries fuel false r
        pure ((key, value) :: rest, r)
      else if r.sees .flowRecordEnd then some ([], r.skip)
      else do
        let (key, r) ← node fuel false false r
        let (rest, r) ← flowEntries fuel false r
        pure ((key, empty {}) :: rest, r)

end

/-- The directives before a document. There may be one version, which has to be known, and one stem
for each handle. -/
def directives : List Token → Bool → List (String × List UInt8) →
    Option (Bool × List (String × List UInt8) × List Token)
  | .version major minor :: rest, seen, handles =>
    if seen || major != 1 || !(minor == 1 || minor == 2) then none else directives rest true handles
  | .handle name stem :: rest, seen, handles =>
    if handles.any (·.1 == name) then none else directives rest seen (handles ++ [(name, stem)])
  | rest, seen, handles => some (seen, handles, rest)

/-- A whole text holds no document or one. -/
inductive Stream
  | empty
  | document (root : Outline)

def fuelFor (ts : List Token) : Nat := 3 * ts.length + 3

/-- Reads the only document of a text. It begins with a mark, if directives stand before it, and ends
with as many marks as there are. -/
def stream? (ts : List Token) : Option Stream := do
  if ts.isEmpty then pure .empty
  else
    let (seen, handles, rest) ← directives ts false []
    let reader : Reader := { rest := rest }
    let reader := { reader with handles := handles ++ reader.handles }
    let isBare := !seen && handles.isEmpty && rest.head? != some .documentStart
    let (root, reader) ←
      if isBare then node (fuelFor ts) true false reader
      else if rest.head? != some .documentStart then none
      else
        let reader := reader.skip
        match reader.head? with
        | none | some (.version ..) | some (.handle ..) | some .documentStart
        | some .documentEnd => some (empty {}, reader)
        | _ => node (fuelFor ts) true false reader
    if reader.rest.all (· == .documentEnd) then pure (.document root) else none

end Outline

end Choreo.Yaml
