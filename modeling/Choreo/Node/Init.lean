import Choreo.Node.Tree

/-!
# Initialising a tree

Before a script runs, its nodes are numbered in pre-order and each leaf is checked against the
entity. What is found is reported; a node at fault keeps its fault, and nothing else changes for it.
-/

namespace Choreo

structure NodeFault where
  node : Nat
  kind : Kind
  error : Fault
  deriving DecidableEq

def NodeFault.message (f : NodeFault) : String := f.error.message f.kind

/-- What initialising a script found. -/
structure Report where
  faults : List NodeFault := []
  nodeCount : Nat := 0
  deriving DecidableEq

namespace Report

def isClean (r : Report) : Bool := r.faults.isEmpty

/-- Each fault is told once, in the order found. -/
def happenings (r : Report) : List Happening := r.faults.map fun f => .faulted f.node

end Report

namespace Node

/-- A node at rest under its number, with what is wrong with the node itself. -/
def checked (n : Node) (id : Nat) (fault : Option Fault) : Node × List NodeFault :=
  (n.withHeader (n.header.initialised id fault), fault.toList.map fun error => ⟨id, n.kind, error⟩)

mutual

/-- Numbers the tree from `first` on and checks every leaf in it. -/
def init (w : Surroundings) (first : Nat) : Node → Node × List NodeFault
  | leaf h a =>
    match a.init w with
    | .ok a => (leaf h a).checked first none
    | .error fault => (leaf h a).checked first (some fault)
  | sequence h children cursor =>
    let (children, faults) := initAll w (first + 1) children
    (sequence (h.initialised first none) children cursor, faults)
  | parallel h children running =>
    let (children, faults) := initAll w (first + 1) children
    (parallel (h.initialised first none) children running, faults)
  | repeating h none running => (repeating h none running).checked first (some .missingChild)
  | repeating h (some child) running =>
    let (child, faults) := init w (first + 1) child
    (repeating (h.initialised first none) (some child) running, faults)

def initAll (w : Surroundings) (first : Nat) : List Node → List Node × List NodeFault
  | [] => ([], [])
  | n :: rest =>
    let (n', faults) := init w first n
    let (rest', more) := initAll w (first + n.size) rest
    (n' :: rest', faults ++ more)

end

/-- Numbers a node and puts it at fault, without looking below it. -/
def reject (n : Node) (id : Nat) (fault : Fault) : Node × List NodeFault := n.checked id (some fault)

/-- An action of a flat sequence must be a leaf. -/
def initFlat (w : Surroundings) (id : Nat) (n : Node) : Node × List NodeFault :=
  if n.isComposite then n.reject id .nestedInFlatSequence else n.init w id

def initFlatAll (w : Surroundings) (first : Nat) : List Node → List Node × List NodeFault
  | [] => ([], [])
  | n :: rest =>
    let (n, faults) := initFlat w first n
    let (rest, more) := initFlatAll w (first + 1) rest
    (n :: rest, faults ++ more)

end Node

end Choreo
