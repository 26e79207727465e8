import Choreo.Leaf.Lifecycle
import Choreo.Trace

/-!
# Nodes

A script is a tree of nodes. A leaf acts; a sequence runs its children one after another, a parallel
all at once, and a repeating node one child again and again. A node carries the state of its run.
-/

namespace Choreo

/-- What every kind of node has: what was authored for it, and where it stands. -/
structure Header where
  label : Option String := none
  /-- A disabled node counts as over whatever its progress. -/
  enabled : Bool := true
  /-- The place in pre-order, counted from the root. -/
  id : Nat := 0
  fault : Option Fault := none
  /-- Between its start and its end. -/
  active : Bool := false
  /-- Active, and its own start has run: it was enabled and had no fault when it was started. -/
  live : Bool := false
  deriving DecidableEq

namespace Header

/-- As a check finds it: numbered, at rest, and with what is wrong with it. -/
def initialised (h : Header) (id : Nat) (fault : Option Fault) : Header :=
  { h with id := id, fault := fault, active := false, live := false }

def opened (h : Header) : Header := { h with active := true, live := h.enabled && h.fault.isNone }

def closed (h : Header) : Header := { h with active := false, live := false }

end Header

/-- Where a sequence is in its list of children. -/
inductive Cursor
  /-- No child runs, and the next one to start is this. -/
  | ready (next : Nat)
  | running (index : Nat)
  /-- Every child has had its turn, and the next to start would be this. -/
  | finished (next : Nat)
  deriving DecidableEq

namespace Cursor

def active : Cursor → Option Nat
  | running index => some index
  | _ => none

/-- The first child that has not been started. -/
def next : Cursor → Nat
  | ready next | finished next => next
  | running index => index + 1

def isFinished : Cursor → Bool
  | finished _ => true
  | _ => false

/-- The place in a list to whose front one more child is put. -/
def shift : Cursor → Cursor
  | ready next => ready (next + 1)
  | running index => running (index + 1)
  | finished next => finished (next + 1)

@[simp]
theorem isFinished_shift (c : Cursor) : c.shift.isFinished = c.isFinished := by
  cases c <;> rfl

/-- The running child is given up, and not taken up again. -/
def halt : Cursor → Cursor
  | running index => ready (index + 1)
  | c => c

end Cursor

inductive Node
  | leaf (header : Header) (action : Leaf)
  | sequence (header : Header) (children : List Node) (cursor : Cursor)
  | parallel (header : Header) (children : List Node) (running : List Bool)
  | repeating (header : Header) (child : Option Node) (running : Bool)

namespace Node

instance : Inhabited Node := ⟨.sequence {} [] (.ready 0)⟩

def header : Node → Header
  | leaf h _ | sequence h _ _ | parallel h _ _ | repeating h _ _ => h

def withHeader (h : Header) : Node → Node
  | leaf _ a => leaf h a
  | sequence _ children cursor => sequence h children cursor
  | parallel _ children running => parallel h children running
  | repeating _ child running => repeating h child running

def id (n : Node) : Nat := n.header.id

def kind : Node → Kind
  | leaf _ a => a.kind
  | sequence .. => .sequence
  | parallel .. => .parallel
  | repeating .. => .repeating

def isComposite : Node → Bool
  | leaf .. => false
  | _ => true

def children : Node → List Node
  | leaf .. => []
  | sequence _ children _ | parallel _ children _ => children
  | repeating _ child _ => child.toList

def setEnabled (enabled : Bool) (n : Node) : Node := n.withHeader { n.header with enabled := enabled }

mutual

/-- The number of nodes in a tree. -/
def size : Node → Nat
  | leaf .. => 1
  | sequence _ children _ | parallel _ children _ => 1 + sizeAll children
  | repeating _ none _ => 1
  | repeating _ (some child) _ => 1 + child.size

def sizeAll : List Node → Nat
  | [] => 0
  | n :: rest => n.size + sizeAll rest

end

mutual

/-- A node before its descendants, and children in authored order. -/
def preorder : Node → List Node
  | n@(leaf ..) => [n]
  | n@(sequence _ children _) => n :: preorderAll children
  | n@(parallel _ children _) => n :: preorderAll children
  | n@(repeating _ none _) => [n]
  | n@(repeating _ (some child) _) => n :: child.preorder

def preorderAll : List Node → List Node
  | [] => []
  | n :: rest => n.preorder ++ preorderAll rest

end

end Node

end Choreo
