import Choreo.Schema.Records
import Choreo.Script

/-!
# Written scripts

A node is a map: its label, whether it is enabled, its kind, and the fields of that kind. Fields that
belong to none of these are passed over. The kind may stand behind the fields that it selects, so
these are kept as plain values until the whole node has been seen, and the nodes below it are read
from plain values only.
-/

namespace Choreo

variable {σ : Type} [Source σ]

/-! ## Leaves -/

def Wait.schema : Schema σ Wait :=
  { name := "Wait"
    fields := [.required "duration" Source.single fun v a => { a with duration := v }]
    blank := { duration := 0 } }

def MoveBy.schema : Schema σ MoveBy :=
  { name := "MoveBy"
    fields :=
      [.required "vector" decode fun v a => { a with vector := v },
        .required "speed" Source.single fun v a => { a with speed := v }]
    blank := { vector := .zero, speed := 0 } }

def FollowPath.schema : Schema σ FollowPath :=
  { name := "MoveAlongPath"
    fields :=
      [.required "path" decode fun v a => { a with path := v },
        .required "speed" Source.single fun v a => { a with speed := v },
        .optional "offset" decode fun v a => { a with offset := v }]
    blank := { path := .polyline ⟨[]⟩, speed := 0 } }

def FollowBezier.schema : Schema σ FollowBezier :=
  { name := "MoveAlongBezierPath"
    fields :=
      [.required "path" decode fun v a => { a with path := v },
        .required "duration" Source.single fun v a => { a with duration := v },
        .optional "offset" decode fun v a => { a with offset := v }]
    blank := { path := ⟨[]⟩, duration := 0 } }

def Jump.schema : Schema σ Jump :=
  { name := "Jump"
    fields := [.required "impulse" Source.single fun v a => { a with impulse := v }]
    blank := { impulse := 0 } }

def SingleShot.schema : Schema σ SingleShot :=
  { name := "ShootSingle"
    fields :=
      [.optional "angle" Source.single fun v a => { a with angle := v },
        .optional "aim" decode fun v a => { a with aim := v }]
    blank := {} }

def Barrage.schema : Schema σ Barrage :=
  { name := "ShootPattern"
    fields :=
      [.required "angle_start" Source.single fun v a => { a with angleStart := v },
        .required "angle_end" Source.single fun v a => { a with angleEnd := v },
        .required "bullet_count" Source.word32 fun v a => { a with bulletCount := v },
        .optional "duration" Source.single fun v a => { a with duration := v },
        .optional "aim" decode fun v a => { a with aim := v }]
    blank := { angleStart := 0, angleEnd := 0, bulletCount := 0 } }

def Attack.schema : Schema σ Attack :=
  { name := "MeleeAttack"
    fields :=
      [.optional "aim" decode fun v a => { a with aim := v },
        .optional "angle" Source.single fun v a => { a with angle := v }]
    blank := {} }

def Lob.schema : Schema σ Lob :=
  { name := "Throw"
    fields :=
      [.optional "aim" decode fun v a => { a with aim := v },
        .optional "angle" Source.single fun v a => { a with angle := v },
        .required "speed" Source.single fun v a => { a with speed := v }]
    blank := { speed := 0 } }

def Walk.schema : Schema σ Walk :=
  { name := "StartMoveToward"
    fields := [.required "speed" Source.single fun v a => { a with speed := v }]
    blank := { speed := 0 } }

/-- The fields of a leaf, in the order in which they are written. -/
def Leaf.entries : Leaf → List (String × Value)
  | .wait a => [("duration", encode a.duration)]
  | .moveBy a => [("vector", encode a.vector), ("speed", encode a.speed)]
  | .followPath a =>
    [("path", encode a.path), ("speed", encode a.speed), ("offset", encode a.offset)]
  | .followBezier a =>
    [("path", encode a.path), ("duration", encode a.duration), ("offset", encode a.offset)]
  | .jump a => [("impulse", encode a.impulse)]
  | .singleShot a => [("angle", encode a.angle), ("aim", encode a.aim)]
  | .barrage a =>
    [("angle_start", encode a.angleStart), ("angle_end", encode a.angleEnd),
      ("bullet_count", .natural a.count), ("duration", encode a.duration), ("aim", encode a.aim)]
  | .attack a => [("aim", encode a.aim), ("angle", encode a.angle)]
  | .lob a => [("aim", encode a.aim), ("angle", encode a.angle), ("speed", encode a.speed)]
  | .walk a => [("speed", encode a.speed)]

/-! ## Nodes -/

namespace Node

/-- The children of a composite, before they are put into one. -/
def childrenSchema (child : Value → Except DecodeError Node) (name : String) :
    Schema Value (List Node) :=
  { name := name
    fields := [.optional "children" (Source.list child) fun v _ => v]
    blank := [] }

def childSchema (child : Value → Except DecodeError Node) : Schema Value (Option Node) :=
  { name := "Repeat"
    fields := [.optional "child" (Source.optional child) fun v _ => v]
    blank := none }

/-- A node of a kind, from the entries that are left for the kind. -/
def ofKind (child : Value → Except DecodeError Node) (h : Header) (map : Entries Value) :
    Kind → Except DecodeError Node
  | .wait => leaf h <$> .wait <$> Wait.schema.readEntries map
  | .moveBy => leaf h <$> .moveBy <$> MoveBy.schema.readEntries map
  | .followPath => leaf h <$> .followPath <$> FollowPath.schema.readEntries map
  | .followBezier => leaf h <$> .followBezier <$> FollowBezier.schema.readEntries map
  | .jump => leaf h <$> .jump <$> Jump.schema.readEntries map
  | .singleShot => leaf h <$> .singleShot <$> SingleShot.schema.readEntries map
  | .barrage => leaf h <$> .barrage <$> Barrage.schema.readEntries map
  | .attack => leaf h <$> .attack <$> Attack.schema.readEntries map
  | .lob => leaf h <$> .lob <$> Lob.schema.readEntries map
  | .walk => leaf h <$> .walk <$> Walk.schema.readEntries map
  | .sequence =>
    (sequence h · (.ready 0)) <$> (childrenSchema child "Sequence").readEntries map
  | .parallel => (parallel h · []) <$> (childrenSchema child "Parallel").readEntries map
  | .repeating => (repeating h · false) <$> (childSchema child).readEntries map

/-- What has been seen of a node: its label, its switch, and the entries that are left. -/
structure Gathered where
  label : Option (Option String) := none
  enabled : Option Bool := none
  others : List (Key × Value) := []

namespace Gathered

def add (g : Gathered) (entry : Key × σ) : Except DecodeError Gathered := do
  match entry.1 with
  | .text "label" =>
    if g.label.isSome then throw (.duplicateField "label")
    let label ← Source.optional Source.text entry.2
    pure { g with label := some label }
  | .text "enabled" =>
    if g.enabled.isSome then throw (.duplicateField "enabled")
    let enabled ← Source.flag entry.2
    pure { g with enabled := some enabled }
  | .unreadable => throw .malformed
  | key =>
    let v ← Source.buffer entry.2
    pure { g with others := g.others ++ [(key, v)] }

/-- The header of a node that has not been run. -/
def header (g : Gathered) : Header :=
  { label := g.label.getD none, enabled := g.enabled.getD true }

end Gathered

/-- Reads a node, given how the nodes below it are read. -/
def read (child : Value → Except DecodeError Node) (s : σ) : Except DecodeError Node := do
  let map ← Source.entries "struct ActionNode" s
  let gathered ← map.entries.foldlM Gathered.add ({} : Gathered)
  map.closing
  let (kind, others) ← Source.splitTag "kind" (Kind.all.map Kind.name) gathered.others
  match kind with
  | none => throw (.missingField "kind")
  | some place =>
    ofKind child gathered.header ⟨others, .ok ()⟩
      (Kind.all.get ⟨place.val, by simpa using place.isLt⟩)

/-- Reads nodes within so many levels. -/
def ofValue : Nat → Value → Except DecodeError Node
  | 0, v => read (fun _ => throw .malformed) v
  | depth + 1, v => read (ofValue depth) v

instance : Decode Node := ⟨read fun v => ofValue v.depth v⟩

def headerEntries (h : Header) (kind : Kind) : List (String × Value) :=
  (h.label.toList.map fun label => ("label", .text label)) ++
    [("enabled", .flag h.enabled), ("kind", .text kind.name)]

mutual

def toValue : Node → Value
  | leaf h a => .object (headerEntries h a.kind ++ a.entries)
  | sequence h children _ =>
    .object (headerEntries h .sequence ++ [("children", .list (allToValues children))])
  | parallel h children _ =>
    .object (headerEntries h .parallel ++ [("children", .list (allToValues children))])
  | repeating h none _ => .object (headerEntries h .repeating ++ [("child", .null)])
  | repeating h (some child) _ =>
    .object (headerEntries h .repeating ++ [("child", child.toValue)])

def allToValues : List Node → List Value
  | [] => []
  | n :: rest => n.toValue :: allToValues rest

end

instance : Encode Node := ⟨toValue⟩

end Node

/-! ## Scripts -/

namespace Script

def forms : List String := ["tree", "sequence"]

def read (s : σ) : Except DecodeError Script := do
  let choice ← Source.choice s
  let form ← Source.known forms choice.name
  match choice.content with
  | none => throw (.wrongType .bareVariant "newtype variant")
  | some content =>
    let script ← if form.val = 0 then tree <$> decode content else (flat ·) <$> decode content
    choice.closing
    pure script

instance : Decode Script := ⟨read⟩

instance : Encode Script :=
  ⟨fun
    | .tree root => .object [("tree", encode root)]
    | .flat actions _ => .object [("sequence", encode actions)]⟩

end Script

end Choreo
