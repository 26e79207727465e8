import Choreo.Proofs.Node.Children
import Choreo.Script

/-!
# Retouching a tree

A statement is often about all of a tree but one part of its nodes: what was authored without what a
run has made of it, the progress of the leaves without the places they remember, everything but the
switches. Such a part is taken out by putting one value in its place throughout the tree.
-/

namespace Choreo

/-- What becomes of each part of a node. -/
structure Retouch where
  header : Header → Header := id
  leaf : Leaf → Leaf := id
  cursor : Cursor → Cursor := id
  flags : List Bool → List Bool := id
  flag : Bool → Bool := id

/-- One retouch after another. -/
def Retouch.after (s r : Retouch) : Retouch where
  header := s.header ∘ r.header
  leaf := s.leaf ∘ r.leaf
  cursor := s.cursor ∘ r.cursor
  flags := s.flags ∘ r.flags
  flag := s.flag ∘ r.flag

namespace Node

mutual

def retouch (r : Retouch) : Node → Node
  | leaf h a => leaf (r.header h) (r.leaf a)
  | sequence h children cursor =>
    sequence (r.header h) (retouchAll r children) (r.cursor cursor)
  | parallel h children running =>
    parallel (r.header h) (retouchAll r children) (r.flags running)
  | repeating h none running => repeating (r.header h) none (r.flag running)
  | repeating h (some child) running =>
    repeating (r.header h) (some (retouch r child)) (r.flag running)

def retouchAll (r : Retouch) : List Node → List Node
  | [] => []
  | n :: rest => retouch r n :: retouchAll r rest

end

variable (r : Retouch)

theorem retouchAll_eq_map (nodes : List Node) : retouchAll r nodes = nodes.map (retouch r) := by
  induction nodes with
  | nil => rfl
  | cons n rest ih => rw [retouchAll, ih, List.map_cons]

theorem retouch_sequence (h : Header) (nodes : List Node) (cursor : Cursor) :
    (sequence h nodes cursor).retouch r =
      sequence (r.header h) (nodes.map (retouch r)) (r.cursor cursor) := by
  rw [retouch, retouchAll_eq_map]

theorem retouch_parallel (h : Header) (nodes : List Node) (running : List Bool) :
    (parallel h nodes running).retouch r =
      parallel (r.header h) (nodes.map (retouch r)) (r.flags running) := by
  rw [retouch, retouchAll_eq_map]

theorem retouch_repeating (h : Header) (child : Option Node) (running : Bool) :
    (repeating h child running).retouch r =
      repeating (r.header h) (child.map (retouch r)) (r.flag running) := by
  cases child <;> rfl

@[simp]
theorem retouch_header (n : Node) : (n.retouch r).header = r.header n.header := by
  cases n with
  | repeating h child running => rw [retouch_repeating]; rfl
  | _ => rfl

theorem retouch_children (n : Node) : (n.retouch r).children = n.children.map (retouch r) := by
  cases n with
  | leaf h a => rfl
  | sequence h nodes cursor => rw [retouch_sequence]; rfl
  | parallel h nodes running => rw [retouch_parallel]; rfl
  | repeating h child running => cases child <;> rfl

@[simp]
theorem retouch_isComposite (n : Node) : (n.retouch r).isComposite = n.isComposite := by
  cases n with
  | repeating h child running => cases child <;> rfl
  | _ => rfl

@[simp]
theorem size_retouch (n : Node) : (n.retouch r).size = n.size := by
  induction n with
  | node n ih =>
      rw [size_eq, size_eq n, retouch_children, List.map_map]
      exact congrArg (fun sizes => 1 + List.sum sizes) (List.map_congr_left ih)

theorem retouch_retouch (s r : Retouch) (n : Node) :
    (n.retouch r).retouch s = n.retouch (s.after r) := by
  induction n with
  | node n ih =>
      have hchildren : (n.children.map (retouch r)).map (retouch s) =
          n.children.map (retouch (s.after r)) := by
        rw [List.map_map]
        exact List.map_congr_left ih
      cases n with
      | leaf h a => rfl
      | sequence h nodes cursor =>
          rw [retouch_sequence, retouch_sequence, retouch_sequence]
          exact congrArg (sequence _ · _) hchildren
      | parallel h nodes running =>
          rw [retouch_parallel, retouch_parallel, retouch_parallel]
          exact congrArg (parallel _ · _) hchildren
      | repeating h child running =>
          cases child with
          | none => rfl
          | some child =>
              have hchild := ih child (by simp [children])
              rw [retouch_repeating, retouch_repeating, retouch_repeating]
              exact congrArg (repeating _ · _) (congrArg some hchild)

theorem preorder_retouch (n : Node) : (n.retouch r).preorder = n.preorder.map (retouch r) := by
  induction n with
  | node n ih =>
      rw [preorder_eq, preorder_eq n, retouch_children, List.map_cons, List.map_flatMap,
        List.flatMap_map]
      exact congrArg _ (List.flatMap_congr ih)

theorem ids_retouch {r : Retouch} (hids : ∀ h, (r.header h).id = h.id) (n : Node) :
    (n.retouch r).ids = n.ids := by
  rw [ids, ids, preorder_retouch, List.map_map]
  refine List.map_congr_left fun k _ => ?_
  rw [Function.comp_apply, id, id, retouch_header, hids]

end Node

def Script.retouch (r : Retouch) : Script → Script
  | tree root => tree (root.retouch r)
  | flat actions cursor => flat (actions.map (Node.retouch r)) (r.cursor cursor)

end Choreo
