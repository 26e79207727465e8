import Choreo.Node.Init
import Choreo.Node.Lifecycle

/-!
# Scripts

A script is a tree, or a flat list of leaves that runs like a sequence but has no node of its own.
-/

namespace Choreo

inductive Script
  | tree (root : Node)
  | flat (actions : List Node) (cursor : Cursor := .ready 0)

namespace Script

/-- Numbers and checks the nodes. The actions of a flat script are numbered by their place. -/
def init (w : Surroundings) : Script → Script × Report
  | tree root =>
    let (root', faults) := root.init w 0
    (tree root', ⟨faults, root.size⟩)
  | flat actions _ =>
    let (actions', faults) := Node.initFlatAll w 0 actions
    (flat actions' (.ready 0), ⟨faults, actions.length⟩)

def start (w : Surroundings) : Script → Script × List Effect
  | tree root =>
    let (root, effects) := root.start w
    (tree root, effects)
  | flat actions _ => (flat actions (.ready 0), [])

def update (m : Moment) (w : Surroundings) : Script → Script × List Effect
  | tree root =>
    let (root, effects) := root.update m w
    (tree root, effects)
  | flat actions cursor =>
    let (actions, cursor, effects) := Node.walk m w cursor actions
    (flat actions cursor, effects)

/-- A flat script has no switch of its own: only the entity can stop it early. -/
def hasStopped (w : Surroundings) : Script → Bool
  | tree root => root.hasStopped w
  | flat _ cursor => !w.active || cursor.isFinished

def finish : Script → Script × List Effect
  | tree root =>
    let (root, effects) := root.finish
    (tree root, effects)
  | flat actions cursor =>
    let (actions, effects) := Node.finishAt cursor actions
    (flat actions cursor.halt, effects)

/-- All nodes, parents first. -/
def nodes : Script → List Node
  | tree root => root.preorder
  | flat actions _ => Node.preorderAll actions

end Script

end Choreo
