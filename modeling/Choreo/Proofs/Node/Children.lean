import Choreo.Node.Lifecycle
import Mathlib.Algebra.GroupWithZero.Nat
import Mathlib.Data.List.Basic

/-!
# A tree seen through its children

Three of the four kinds of node have children, each in a shape of its own. Most of what is true of a
tree does not depend on the shape, only on the list of children; so pre-order, size and induction are
given here in terms of that list alone.
-/

namespace Choreo.Node

theorem sizeOf_lt_of_mem_children {n c : Node} (hc : c ∈ n.children) : sizeOf c < sizeOf n := by
  cases n with
  | leaf h a => simp [children] at hc
  | sequence h nodes cursor =>
      have := List.sizeOf_lt_of_mem (show c ∈ nodes from hc)
      simp only [sequence.sizeOf_spec]
      omega
  | parallel h nodes running =>
      have := List.sizeOf_lt_of_mem (show c ∈ nodes from hc)
      simp only [parallel.sizeOf_spec]
      omega
  | repeating h child running =>
      obtain rfl : child = some c := by simpa [children] using hc
      simp only [repeating.sizeOf_spec, Option.some.sizeOf_spec]
      omega

/-- What holds of a node whenever it holds of its children holds of every node. -/
@[elab_as_elim, induction_eliminator]
theorem inductionOnChildren {motive : Node → Prop}
    (node : ∀ n : Node, (∀ c ∈ n.children, motive c) → motive n) (n : Node) : motive n :=
  node n fun c _hc => inductionOnChildren node c
termination_by sizeOf n
decreasing_by exact sizeOf_lt_of_mem_children _hc

theorem preorderAll_eq_flatMap (nodes : List Node) : preorderAll nodes = nodes.flatMap preorder := by
  induction nodes with
  | nil => rfl
  | cons n rest ih => rw [preorderAll, ih, List.flatMap_cons]

theorem preorder_eq (n : Node) : n.preorder = n :: n.children.flatMap preorder := by
  cases n with
  | leaf h a => rfl
  | sequence h nodes cursor => rw [preorder, preorderAll_eq_flatMap, children]
  | parallel h nodes running => rw [preorder, preorderAll_eq_flatMap, children]
  | repeating h child running => cases child <;> simp [preorder, children]

theorem sizeAll_eq_sum (nodes : List Node) : sizeAll nodes = (nodes.map size).sum := by
  induction nodes with
  | nil => rfl
  | cons n rest ih => rw [sizeAll, ih, List.map_cons, List.sum_cons]

theorem size_eq (n : Node) : n.size = 1 + (n.children.map size).sum := by
  cases n with
  | leaf h a => rfl
  | sequence h nodes cursor => rw [size, sizeAll_eq_sum, children]
  | parallel h nodes running => rw [size, sizeAll_eq_sum, children]
  | repeating h child running => cases child <;> simp [size, children]

theorem size_lt_sum_of_mem {nodes : List Node} {n : Node} (hn : n ∈ nodes) :
    n.size < (nodes.map size).sum + 1 := by
  obtain ⟨before, after, rfl⟩ := List.append_of_mem hn
  rw [List.map_append, List.sum_append, List.map_cons, List.sum_cons]
  omega

theorem size_lt_of_mem_children {n c : Node} (hc : c ∈ n.children) : c.size < n.size := by
  rw [size_eq n, Nat.add_comm]
  exact size_lt_sum_of_mem hc

theorem exists_leaf {n : Node} (hleaf : n.isComposite = false) : ∃ h a, n = leaf h a := by
  cases n with
  | leaf h a => exact ⟨h, a, rfl⟩
  | sequence h nodes cursor => cases hleaf
  | parallel h nodes running => cases hleaf
  | repeating h child running => cases hleaf

/-- The numbers of a node and its descendants, in pre-order. -/
def ids (n : Node) : List Nat := n.preorder.map id

theorem ids_eq (n : Node) : n.ids = n.id :: n.children.flatMap ids := by
  rw [ids, preorder_eq, List.map_cons, List.map_flatMap]
  rfl

theorem ids_congr (n k : Node) (_ : n.kind = k.kind) (hheader : n.header.closed = k.header.closed)
    (hchildren : n.children.map ids = k.children.map ids) : n.ids = k.ids := by
  have hid : n.id = k.id := show n.header.closed.id = k.header.closed.id by rw [hheader]
  rw [ids_eq, ids_eq, List.flatMap_def, List.flatMap_def, hid, hchildren]

/-- Who is the parent of whom: the numbers of a node and of one of its children, for every node of
the tree. -/
def edges (n : Node) : List (Nat × Nat) :=
  n.preorder.flatMap fun parent => parent.children.map fun child => (parent.id, child.id)

theorem edges_eq (n : Node) :
    n.edges = n.children.map (fun child => (n.id, child.id)) ++ n.children.flatMap edges := by
  rw [edges, preorder_eq, List.flatMap_cons, List.flatMap_assoc]
  rfl

end Choreo.Node
