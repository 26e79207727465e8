import Choreo.Node.Tree

/-!
# Running a tree

Every node is started, updated some number of times, and ended once. A composite asks of a child only
whether it has stopped, so a disabled child, a faulty one and a despawning entity all leave through
the same `finish`. Each operation yields the node after it and its effects in order.
-/

namespace Choreo

/-- What an operation on a script does to the outside. -/
inductive Effect
  | event (happening : Happening)
  | write (write : Write)
  deriving DecidableEq

namespace Effect

def happening? : Effect → Option Happening
  | event h => some h
  | write _ => none

def write? : Effect → Option Write
  | event _ => none
  | write w => some w

def happenings (effects : List Effect) : List Happening := effects.filterMap happening?

def writes (effects : List Effect) : List Write := effects.filterMap write?

end Effect

namespace Node

/-- The node's own completion, apart from everything that stops it from outside. -/
def isComplete : Node → Bool
  | leaf _ a => a.isOver
  | sequence _ _ cursor => cursor.isFinished
  | parallel _ _ running => running.all not
  | repeating .. => false

/-- A node that is not live has nothing left to do. -/
def isOver (n : Node) : Bool := !n.header.live || n.isComplete

/-- Completion together with every reason to stop: disabled, at fault, or the entity inactive. -/
def hasStopped (w : Surroundings) (n : Node) : Bool :=
  !n.header.enabled || n.header.fault.isSome || !w.active || n.isOver

mutual

/-- Opens a node. Only a parallel passes the start on; the other composites start their children as
they come to them. -/
def start (w : Surroundings) : Node → Node × List Effect
  | leaf h a =>
    if h.opened.live then
      let (a, writes) := a.start w
      (leaf h.opened a, .event (.started h.id) :: writes.map .write)
    else (leaf h.opened a, [.event (.started h.id)])
  | sequence h children cursor =>
    (sequence h.opened children (if h.opened.live then .ready 0 else cursor),
      [.event (.started h.id)])
  | parallel h children running =>
    if h.opened.live then
      let (children, effects) := startAll w children
      (parallel h.opened children (children.map fun _ => true), .event (.started h.id) :: effects)
    else (parallel h.opened children running, [.event (.started h.id)])
  | repeating h child running =>
    (repeating h.opened child (if h.opened.live then false else running),
      [.event (.started h.id)])

def startAll (w : Surroundings) : List Node → List Node × List Effect
  | [] => ([], [])
  | n :: rest =>
    let (n, effects) := start w n
    let (rest, more) := startAll w rest
    (n :: rest, effects ++ more)

end

mutual

/-- Closes an active node, after what is active below it; nothing happens to any other. -/
def finish : Node → Node × List Effect
  | leaf h a =>
    if !h.active then (leaf h a, [])
    else
      (leaf h.closed a,
        (if h.live then a.finish.map .write else []) ++ [.event (.ended h.id)])
  | sequence h children cursor =>
    if !h.active then (sequence h children cursor, [])
    else if h.live then
      let (children, effects) := finishAt cursor children
      (sequence h.closed children cursor.halt, effects ++ [.event (.ended h.id)])
    else (sequence h.closed children cursor, [.event (.ended h.id)])
  | parallel h children running =>
    if !h.active then (parallel h children running, [])
    else if h.live then
      let (children, effects) := finishRunning running children
      (parallel h.closed children (running.map fun _ => false),
        effects ++ [.event (.ended h.id)])
    else (parallel h.closed children running, [.event (.ended h.id)])
  | repeating h none running =>
    if !h.active then (repeating h none running, [])
    else (repeating h.closed none running, [.event (.ended h.id)])
  | repeating h (some child) running =>
    if !h.active then (repeating h (some child) running, [])
    else if h.live && running then
      let (child, effects) := finish child
      (repeating h.closed (some child) false, effects ++ [.event (.ended h.id)])
    else (repeating h.closed (some child) running, [.event (.ended h.id)])

/-- Ends the child that the cursor runs, if any. -/
def finishAt : Cursor → List Node → List Node × List Effect
  | .running 0, n :: rest =>
    let (n, effects) := finish n
    (n :: rest, effects)
  | .running (index + 1), n :: rest =>
    let (rest, effects) := finishAt (.running index) rest
    (n :: rest, effects)
  | _, nodes => (nodes, [])

/-- Ends the children marked as running. -/
def finishRunning : List Bool → List Node → List Node × List Effect
  | running :: flags, n :: rest =>
    let (n', effects) := if running then finish n else (n, [])
    let (rest', more) := finishRunning flags rest
    (n' :: rest', effects ++ more)
  | _, nodes => (nodes, [])

end

mutual

/-- One update of a node as it is or, when `fresh`, as `start` leaves it; the start's own effects are
not repeated. A sequence and a repeating node update a child in the tick that starts it, so taking
the start into account here keeps the recursion on the tree. -/
def updateFrom (m : Moment) (w : Surroundings) (fresh : Bool) : Node → Node × List Effect
  | leaf h a =>
    let h := if fresh then h.opened else h
    let a := if fresh && h.live then (a.start w).1 else a
    if h.live then
      let (a, writes) := a.update m w
      (leaf h a, writes.map .write)
    else (leaf h a, [])
  | sequence h children cursor =>
    let h := if fresh then h.opened else h
    if h.live then
      let (children, cursor, effects) := walk m w (if fresh then .ready 0 else cursor) children
      (sequence h children cursor, effects)
    else (sequence h children cursor, [])
  | parallel h children running =>
    let h := if fresh then h.opened else h
    if h.live then
      let running := if fresh then children.map fun _ => true else running
      let (children, running, effects) := updateRunning m w fresh running children
      (parallel h children running, effects)
    else (parallel h children running, [])
  | repeating h none running =>
    let h := if fresh then h.opened else h
    (repeating h none (if fresh && h.live then false else running), [])
  | repeating h (some child) running =>
    let h := if fresh then h.opened else h
    if h.live then
      if running && !fresh then
        if child.hasStopped w then
          let (child, effects) := child.finish
          (repeating h (some child) false, effects)
        else
          let (child, effects) := updateFrom m w false child
          (repeating h (some child) true, effects)
      else
        let (started, opening) := child.start w
        if started.hasStopped w then
          let (child, effects) := started.finish
          (repeating h (some child) false, opening ++ effects)
        else
          let (child, effects) := updateFrom m w true child
          (repeating h (some child) true, opening ++ effects)
    else (repeating h (some child) running, [])

/-- One tick of a sequence: retires the running child if it has stopped, starts children until one
does not stop at once, and updates the one that then runs. -/
def walk (m : Moment) (w : Surroundings) : Cursor → List Node → List Node × Cursor × List Effect
  | .finished next, nodes => (nodes, .finished next, [])
  | .ready next, [] => ([], .finished next, [])
  | .running index, [] => ([], .running index, [])
  | .ready (next + 1), n :: rest =>
    let (rest, cursor, effects) := walk m w (.ready next) rest
    (n :: rest, cursor.shift, effects)
  | .running (index + 1), n :: rest =>
    let (rest, cursor, effects) := walk m w (.running index) rest
    (n :: rest, cursor.shift, effects)
  | .ready 0, n :: rest =>
    let (started, opening) := n.start w
    if started.hasStopped w then
      let (n, closing) := started.finish
      let (rest, cursor, effects) := walk m w (.ready 0) rest
      (n :: rest, cursor.shift, opening ++ closing ++ effects)
    else
      let (n, effects) := updateFrom m w true n
      (n :: rest, .running 0, opening ++ effects)
  | .running 0, n :: rest =>
    if n.hasStopped w then
      let (n, closing) := n.finish
      let (rest, cursor, effects) := walk m w (.ready 0) rest
      (n :: rest, cursor.shift, closing ++ effects)
    else
      let (n, effects) := updateFrom m w false n
      (n :: rest, .running 0, effects)

/-- One tick of a parallel: each running child is ended if it has stopped, and else updated. -/
def updateRunning (m : Moment) (w : Surroundings) (fresh : Bool) :
    List Bool → List Node → List Node × List Bool × List Effect
  | running :: flags, n :: rest =>
    let (n', running', effects) :=
      if running then
        let current := if fresh then (n.start w).1 else n
        if current.hasStopped w then
          let (n, effects) := current.finish
          (n, false, effects)
        else
          let (n, effects) := updateFrom m w fresh n
          (n, true, effects)
      else (n, false, [])
    let (rest', flags', more) := updateRunning m w fresh flags rest
    (n' :: rest', running' :: flags', effects ++ more)
  | flags, nodes => (nodes, flags, [])

end

/-- Advances an active node by one tick. -/
def update (m : Moment) (w : Surroundings) (n : Node) : Node × List Effect := n.updateFrom m w false

end Node

end Choreo
