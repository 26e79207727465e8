import Choreo.Proofs.Node.Numbering
import Mathlib.Data.List.Forall2

/-!
# What a check finds

A check goes through a tree once and leaves every node with its number, at rest, and with the fault
that it finds with the node itself. What it reports besides says nothing new: the list of faults can be
read off the nodes.
-/

namespace Choreo

theorem Leaf.kind_of_init {w : Surroundings} {a b : Leaf} (h : a.init w = .ok b) :
    b.kind = a.kind := by
  have hmade : ∀ {α : Type} (make : α → Leaf) (x : Except Fault α),
      make <$> x = .ok b → (∀ c, (make c).kind = a.kind) → b.kind = a.kind := by
    intro α make x hx hkind
    cases x with
    | error fault => cases hx
    | ok c =>
        obtain rfl : make c = b := Except.ok.inj hx
        exact hkind c
  cases a <;> rw [init] at h <;> exact hmade _ _ h fun _ => rfl

namespace Node

/-- What a report has to say of the node. -/
def complaint? (n : Node) : Option NodeFault :=
  n.header.fault.map fun error => ⟨n.id, n.kind, error⟩

/-- What a check finds wrong with the node by itself, whatever has become of it before. -/
def verdict (w : Surroundings) (n : Node) : Option Fault :=
  ((n.withHeader {}).init w 0).1.header.fault

/-- The node before a check and after it. -/
structure Judged (verdict : Option Fault) (before after : Node) : Prop where
  kind : after.kind = before.kind
  header : after.header = before.header.initialised after.id verdict
  arity : after.children.length = before.children.length

variable (w : Surroundings)

theorem init_kind (n : Node) (first : Nat) : (n.init w first).1.kind = n.kind := by
  cases n with
  | leaf h a =>
      rw [init]
      cases hinit : a.init w with
      | error fault => rfl
      | ok b => exact Leaf.kind_of_init hinit
  | sequence h nodes cursor => rfl
  | parallel h nodes running => rfl
  | repeating h child running => cases child <;> rfl

theorem header_init (n : Node) (first : Nat) :
    (n.init w first).1.header = n.header.initialised first (n.verdict w) := by
  cases n with
  | leaf h a =>
      rw [verdict, withHeader, init, init]
      cases a.init w <;> rfl
  | sequence h nodes cursor => rfl
  | parallel h nodes running => rfl
  | repeating h child running => cases child <;> rfl

theorem judged_init (n : Node) (first : Nat) : Judged (n.verdict w) n (n.init w first).1 where
  kind := n.init_kind w first
  header := by rw [init_id, header_init]
  arity := by rw [init_children, initAll_length]

/-- A node's own complaint comes before those of its descendants. -/
theorem faults_init (n : Node) (first : Nat) :
    (n.init w first).2 =
      (n.init w first).1.complaint?.toList ++ (initAll w (first + 1) n.children).2 := by
  cases n with
  | leaf h a =>
      cases hinit : a.init w with
      | error fault => simp [init, hinit, checked, complaint?, children, initAll]; rfl
      | ok b => simp [init, hinit, checked, complaint?, children, initAll]; rfl
  | sequence h nodes cursor => rfl
  | parallel h nodes running => rfl
  | repeating h child running =>
      cases child with
      | none => rfl
      | some child => simp [init, complaint?, children, initAll, header, Header.initialised]

theorem complaints_initAll {nodes : List Node}
    (hnodes : ∀ n ∈ nodes, ∀ first,
      (n.init w first).2 = (n.init w first).1.preorder.filterMap complaint?) (first : Nat) :
    (initAll w first nodes).2 =
      ((initAll w first nodes).1.flatMap preorder).filterMap complaint? := by
  induction nodes generalizing first with
  | nil => rfl
  | cons n rest ih =>
      rw [initAll_cons, List.flatMap_cons, List.filterMap_append, hnodes n (by simp),
        ih fun k hk => hnodes k (by simp [hk])]

theorem complaints_init (n : Node) (first : Nat) :
    (n.init w first).2 = (n.init w first).1.preorder.filterMap complaint? := by
  induction n generalizing first with
  | node n ih =>
      rw [faults_init, complaints_initAll w ih, preorder_eq, init_children]
      cases hown : (n.init w first).1.complaint? with
      | none => rw [List.filterMap_cons_none hown]; rfl
      | some fault => rw [List.filterMap_cons_some hown]; rfl

theorem judged_initAll {nodes : List Node}
    (hnodes : ∀ n ∈ nodes, ∀ first, List.Forall₂ (fun before after => Judged (before.verdict w)
      before after) n.preorder (n.init w first).1.preorder) (first : Nat) :
    List.Forall₂ (fun before after => Judged (before.verdict w) before after)
      (nodes.flatMap preorder) ((initAll w first nodes).1.flatMap preorder) := by
  induction nodes generalizing first with
  | nil => exact .nil
  | cons n rest ih =>
      rw [initAll_cons, List.flatMap_cons, List.flatMap_cons]
      exact List.rel_append (hnodes n (by simp) first) (ih (fun k hk => hnodes k (by simp [hk])) _)

/-- A check meets the nodes of a tree in pre-order, and finds with each what it would find with that
node alone. -/
theorem judged_preorder (n : Node) (first : Nat) :
    List.Forall₂ (fun before after => Judged (before.verdict w) before after) n.preorder
      (n.init w first).1.preorder := by
  induction n generalizing first with
  | node n ih =>
      rw [preorder_eq, preorder_eq, init_children]
      exact .cons (n.judged_init w first) (judged_initAll w ih (first + 1))

/-! ### Blocks of numbers -/

theorem length_ids (n : Node) : n.ids.length = n.size := by
  induction n with
  | node n ih =>
      rw [ids_eq, size_eq, List.length_cons, List.length_flatMap, Nat.add_comm,
        List.map_congr_left ih]

/-- Every subtree of a checked tree is a checked subtree. -/
theorem exists_of_mem_init {n k : Node} {first : Nat} (hk : k ∈ (n.init w first).1.preorder) :
    ∃ j ∈ n.preorder, ∃ i, k = (j.init w i).1 := by
  induction n generalizing first with
  | node n ih =>
      rw [preorder_eq, init_children] at hk
      rcases List.mem_cons.mp hk with rfl | hk
      · exact ⟨n, by rw [preorder_eq]; exact List.mem_cons_self, first, rfl⟩
      · obtain ⟨c, hc, hk⟩ := List.mem_flatMap.mp hk
        obtain ⟨d, hd, i, rfl⟩ := mem_initAll w hc
        obtain ⟨j, hj, hinit⟩ := ih d hd hk
        refine ⟨j, ?_, hinit⟩
        rw [preorder_eq]
        exact List.mem_cons_of_mem _ (List.mem_flatMap.mpr ⟨d, hd, hj⟩)

/-- Every subtree has its numbers in one block. -/
theorem ids_of_mem_init {n k : Node} {first : Nat} (hk : k ∈ (n.init w first).1.preorder) :
    k.ids = List.range' k.id k.size := by
  obtain ⟨j, _, i, rfl⟩ := exists_of_mem_init w hk
  rw [← length_ids, ids_init, List.length_range', init_id]

/-- A leaf node that a check accepts holds what the check has made of the leaf. -/
theorem init_leaf_of_fault {h : Header} {a : Leaf} {w : Surroundings} {id : ℕ}
    (haccepted : ((leaf h a).init w id).1.header.fault = none) :
    ∃ b, a.init w = .ok b ∧ ((leaf h a).init w id).1 = leaf (h.initialised id none) b := by
  cases hinit : a.init w with
  | error fault =>
      rw [init, hinit] at haccepted
      cases haccepted
  | ok b => exact ⟨b, rfl, by rw [init, hinit]; rfl⟩

/-- A leaf without fault is one that the check has accepted. -/
theorem ok_of_init {n : Node} {first : Nat} {h : Header} {a : Leaf}
    (heq : (n.init w first).1 = leaf h a) (hfault : h.fault = none) :
    ∃ h₀ a₀, n = leaf h₀ a₀ ∧ a₀.init w = .ok a := by
  cases n with
  | leaf h₀ a₀ =>
      have haccepted : ((leaf h₀ a₀).init w first).1.header.fault = none := by
        rw [heq]
        exact hfault
      obtain ⟨b, hinit, hnode⟩ := init_leaf_of_fault haccepted
      obtain ⟨-, rfl⟩ := Node.leaf.inj (hnode.symm.trans heq)
      exact ⟨h₀, a₀, rfl, hinit⟩
  | sequence h₀ nodes cursor => cases heq
  | parallel h₀ nodes running => cases heq
  | repeating h₀ child running => cases child <;> cases heq

end Node

end Choreo
