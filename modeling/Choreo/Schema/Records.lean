import Choreo.Data.Source
import Choreo.Trace
import Choreo.Surroundings
import Choreo.Path.Shape

/-!
# Written records

How vectors, intentions, events and paths are written and read. The name of a record is the one that
messages show.
-/

namespace Choreo

variable {σ : Type} [Source σ]

instance : Decode Single := ⟨Source.single⟩

instance {α : Type} [Decode α] : Decode (List α) := ⟨Source.list decode⟩

def Planar.schema : Schema σ Planar :=
  { name := "Vec2"
    fields :=
      [.required "x" Source.single fun x v => { v with x := x },
        .required "y" Source.single fun y v => { v with y := y }]
    blank := .zero }

instance : Decode Planar := ⟨Planar.schema.read⟩

instance : Encode Planar := ⟨fun v => .object [("x", encode v.x), ("y", encode v.y)]⟩

instance : Decode Capability := ⟨Source.oneOf Capability.name Capability.all⟩

instance : Encode Capability := ⟨fun c => .text c.name⟩

def Aim.all : List Aim := [.forward, .target]

instance : Decode Aim := ⟨Source.oneOf Aim.name Aim.all⟩

instance : Encode Aim := ⟨fun a => .text a.name⟩

/-! ## Intentions -/

def Motion.schema : Schema σ Motion :=
  { name := "MoveIntention"
    fields :=
      [.required "velocity" decode fun v r => { r with velocity := v },
        .required "ground_speed" Source.single fun v r => { r with groundSpeed := v },
        .required "jump_impulse" Source.single fun v r => { r with jumpImpulse := v }]
    blank := {} }

instance : Encode Motion :=
  ⟨fun r => .object
    [("velocity", encode r.velocity), ("ground_speed", encode r.groundSpeed),
      ("jump_impulse", encode r.jumpImpulse)]⟩

def Gunfire.schema : Schema σ Gunfire :=
  { name := "FireIntention"
    fields :=
      [.required "hold" Source.flag fun v r => { r with hold := v },
        .required "fire_once" Source.flag fun v r => { r with once := v },
        .required "aim" decode fun v r => { r with aim := v },
        .required "directions" decode fun v r => { r with directions := v }]
    blank := {} }

instance : Encode Gunfire :=
  ⟨fun r => .object
    [("hold", .flag r.hold), ("fire_once", .flag r.once), ("aim", encode r.aim),
      ("directions", encode r.directions)]⟩

def Toss.schema : Schema σ Toss :=
  { name := "ThrowIntention"
    fields :=
      [.required "start" Source.flag fun v r => { r with start := v },
        .required "direction" decode fun v r => { r with direction := v },
        .required "speed" Source.single fun v r => { r with speed := v }]
    blank := {} }

instance : Encode Toss :=
  ⟨fun r => .object
    [("start", .flag r.start), ("direction", encode r.direction), ("speed", encode r.speed)]⟩

def Strike.schema : Schema σ Strike :=
  { name := "MeleeIntention"
    fields :=
      [.required "start" Source.flag fun v r => { r with start := v },
        .required "direction" decode fun v r => { r with direction := v }]
    blank := {} }

instance : Encode Strike :=
  ⟨fun r => .object [("start", .flag r.start), ("direction", encode r.direction)]⟩

/-- A record that is left out is one that the entity lacks. -/
def Intentions.schema : Schema σ Intentions :=
  { name := "Intentions"
    fields :=
      [.optional "movement" (Source.optional Motion.schema.read) fun v r =>
          { r with movement := v },
        .optional "fire" (Source.optional Gunfire.schema.read) fun v r => { r with fire := v },
        .optional "throw" (Source.optional Toss.schema.read) fun v r => { r with throw := v },
        .optional "melee" (Source.optional Strike.schema.read) fun v r => { r with melee := v }]
    blank := {} }

instance : Decode Intentions := ⟨Intentions.schema.read⟩

instance : Encode Intentions :=
  ⟨fun r => .object
    [("movement", encode r.movement), ("fire", encode r.fire), ("throw", encode r.throw),
      ("melee", encode r.melee)]⟩

/-! ## Traces -/

/-- A node number fills 32 bits at most. -/
def nodeNumber (s : σ) : Except DecodeError Nat := UInt32.toNat <$> Source.word32 s

def Event.schema : Schema σ Event :=
  { name := "TraceEvent"
    fields :=
      [.required "tick" Source.word64 fun v r => { r with tick := v },
        .required "tag" Source.text fun v r => { r with tag := v },
        .optional "node" (Source.optional nodeNumber) fun v r => { r with node := v }]
    blank := { tick := 0, tag := "" } }

instance : Decode Event := ⟨Event.schema.read⟩

instance : Encode Event :=
  ⟨fun e => .object
    [("tick", .natural e.tick.toNat), ("tag", .text e.tag),
      ("node", .option (e.node.map .natural))]⟩

def Log.schema : Schema σ Log :=
  { name := "TraceLog"
    fields := [.required "events" decode fun v r => { r with events := v }]
    blank := {} }

instance : Decode Log := ⟨Log.schema.read⟩

instance : Encode Log := ⟨fun l => .object [("events", encode l.events)]⟩

/-! ## Paths -/

def Polyline.schema : Schema σ Polyline :=
  { name := "Polyline"
    fields := [.required "points" decode fun v r => { r with points := v }]
    blank := ⟨[]⟩ }

instance : Decode Polyline := ⟨Polyline.schema.read⟩

def Polyline.entries (p : Polyline) : List (String × Value) := [("points", encode p.points)]

instance : Encode Polyline := ⟨fun p => .object p.entries⟩

def Cubic.schema : Schema σ Cubic :=
  { name := "CubicBezier"
    fields :=
      [.required "start" decode fun v r => { r with start := v },
        .required "start_handle" decode fun v r => { r with startHandle := v },
        .required "end_handle" decode fun v r => { r with endHandle := v },
        .required "end" decode fun v r => { r with finish := v }]
    blank := ⟨.zero, .zero, .zero, .zero⟩ }

instance : Decode Cubic := ⟨Cubic.schema.read⟩

instance : Encode Cubic :=
  ⟨fun c => .object
    [("start", encode c.start), ("start_handle", encode c.startHandle),
      ("end_handle", encode c.endHandle), ("end", encode c.finish)]⟩

def Bezier.schema : Schema σ Bezier :=
  { name := "BezierPath"
    fields := [.required "curves" decode fun v r => { r with curves := v }]
    blank := ⟨[]⟩ }

instance : Decode Bezier := ⟨Bezier.schema.read⟩

def Bezier.entries (b : Bezier) : List (String × Value) := [("curves", encode b.curves)]

instance : Encode Bezier := ⟨fun b => .object b.entries⟩

/-- Takes the field that names the kind of a record out of its entries. It may stand anywhere among
them, so the others wait as plain values. -/
def Source.splitTag (tag : String) (names : List String) :
    List (Key × σ) → Except DecodeError (Option (Fin names.length) × List (Key × Value)) :=
  go none
where
  go (found : Option (Fin names.length)) :
      List (Key × σ) → Except DecodeError (Option (Fin names.length) × List (Key × Value))
    | [] => pure (found, [])
    | (key, s) :: rest => do
      if key = .unreadable then throw .malformed
      if key = .text tag then
        if found.isSome then throw (.duplicateField tag)
        go (some (← known names (← name s))) rest
      else
        let v ← buffer s
        let (found, others) ← go found rest
        pure (found, (key, v) :: others)

namespace Path

def shapes : List String := ["polyline", "bezier"]

def ofEntries (map : Entries Value) (shape : Nat) : Except DecodeError Path :=
  if shape = 0 then polyline <$> Polyline.schema.readEntries map
  else bezier <$> Bezier.schema.readEntries map

def ofItems (list : Items Value) (shape : Nat) : Except DecodeError Path :=
  if shape = 0 then polyline <$> Polyline.schema.readItems list
  else bezier <$> Bezier.schema.readItems list

/-- A path names its shape in a field, or at the head of a list. -/
def read (s : σ) : Except DecodeError Path := do
  match ← Source.shape s with
  | .entries map =>
    let (shape, others) ← Source.splitTag "shape" shapes map.entries
    map.closing
    match shape with
    | some place => ofEntries ⟨others, .ok ()⟩ place
    | none => throw (.missingField "shape")
  | .items list =>
    match list.items with
    | [] =>
      list.closing
      throw (.missingField "shape")
    | first :: rest =>
      let place ← Source.known shapes (← Source.name first)
      let others ← rest.mapM Source.buffer
      list.closing
      ofItems ⟨others, .ok ()⟩ place
  | .blank => throw (.missingField "shape")
  | .other found => throw (.wrongType found "internally tagged enum Path")

instance : Decode Path := ⟨read⟩

instance : Encode Path :=
  ⟨fun
    | .polyline p => .object (("shape", .text "polyline") :: p.entries)
    | .bezier b => .object (("shape", .text "bezier") :: b.entries)⟩

end Path

end Choreo
