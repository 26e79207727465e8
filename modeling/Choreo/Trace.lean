/-!
# Lifecycle traces

What happens to the nodes of a script is told as events in the order in which it happens. A
`Happening` is what the interpreter reports; an `Event` is its written form, which carries the tick
and allows any tag.
-/

namespace Choreo

inductive Happening
  | started (node : Nat)
  | ended (node : Nat)
  | faulted (node : Nat)
  | activated
  | finished
  | stopped
  deriving DecidableEq

namespace Happening

def tag : Happening → String
  | started _ => "node.start"
  | ended _ => "node.end"
  | faulted _ => "node.fault"
  | activated => "script.activate"
  | finished => "script.finish"
  | stopped => "script.stop"

def node : Happening → Option Nat
  | started n | ended n | faulted n => some n
  | activated | finished | stopped => none

end Happening

structure Event where
  tick : UInt64
  tag : String
  node : Option Nat := none
  deriving DecidableEq

def Happening.at (h : Happening) (tick : UInt64) : Event := ⟨tick, h.tag, h.node⟩

/-- Events in the order of emission. -/
structure Log where
  events : List Event := []
  deriving DecidableEq

namespace Log

def record (l : Log) (e : Event) : Log := ⟨l.events ++ [e]⟩

def isEmpty (l : Log) : Bool := l.events.isEmpty

/-- The nodes of the events with a tag. -/
def nodesTagged (l : Log) (tag : String) : List Nat :=
  (l.events.filter (·.tag == tag)).filterMap (·.node)

def count (l : Log) (tag : String) (node : Nat) : Nat :=
  l.events.countP fun e => e.tag == tag && e.node == some node

end Log

end Choreo
