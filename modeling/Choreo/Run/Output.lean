import Choreo.Json.Printing
import Choreo.Run.Trajectory

/-!
# Output

The lines that a run prints: one for each tick that is shown, and before it, if they are asked for,
one for each event of the tick.
-/

namespace Choreo

/-- What of a run is shown, and how. -/
structure Selection where
  json : Bool := false
  /-- Show ticks in which nothing happened, too. -/
  all : Bool := false
  /-- Show events. -/
  trace : Bool := false

def tickColumn (tick : UInt64) : String := Layout.padLeft 6 (toString tick.toNat)

def Event.line (json : Bool) (e : Event) : String :=
  if json then Json.render (encode e)
  else
    tickColumn e.tick ++ "  " ++ e.tag ++
      match e.node with
      | some node => " #" ++ toString node
      | none => ""

/-- A vector in columns of the given width. -/
def Planar.columns (width : Nat) (v : Planar) : String :=
  let column (x : Single) := Layout.padLeft width (Layout.fixed 3 x.exact)
  "(" ++ column v.x ++ ", " ++ column v.y ++ ")"

namespace Record

/-- What an entity did besides moving. -/
def marks (r : Record) : String :=
  (if r.shots.isEmpty then "" else "  shots " ++ toString r.shots.length) ++
    (if r.toss.isSome then "  throw" else "") ++ (if r.strike.isSome then "  melee" else "") ++
    (if r.jump.isSome then "  jump" else "")

def line (json : Bool) (r : Record) : String :=
  if json then Json.render (encode r)
  else
    tickColumn r.tick ++ "  pos " ++ r.position.columns 8 ++ "  vel " ++ r.velocity.columns 7 ++
      r.marks

end Record

namespace Selection

def eventLines (o : Selection) (events : List Event) : List String :=
  if o.trace then events.map (·.line o.json) else []

def recordLines (o : Selection) (r : Record) : List String :=
  if o.all || r.isEventful then [r.line o.json] else []

def frameLines (o : Selection) (f : Frame) : List String :=
  o.eventLines f.events ++ o.recordLines f.record

/-- All that a run prints. -/
def lines (o : Selection) (t : Trajectory) : List String :=
  o.eventLines t.opening ++ t.frames.flatMap o.frameLines

end Selection

namespace Report

/-- A report as text, under the name of its script. -/
def textLines (name : String) (r : Report) : List String :=
  (name ++ ": " ++ toString r.nodeCount ++ " nodes") ::
    r.faults.map fun fault =>
      "  node " ++ toString fault.node ++ " (" ++ fault.kind.name ++ "): " ++ fault.message

def toValue (r : Report) : Value :=
  .object
    [("faults", .list (r.faults.map fun fault => .object
        [("error", .text fault.message), ("kind", .text fault.kind.name),
          ("node", .natural fault.node)])),
      ("nodes", .natural r.nodeCount)]

def lines (json : Bool) (name : String) (r : Report) : List String :=
  if json then [Json.render r.toValue] else r.textLines name

end Report

end Choreo
