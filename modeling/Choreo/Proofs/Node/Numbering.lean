import Choreo.Proofs.Node.Sound

/-!
# Numbering

Initialising a tree puts every node in it at rest and numbers the nodes in pre-order, in one block
without gaps that starts at the number given to the root. The numbers of a tree are therefore
distinct, and those of two children lie in separate blocks.
-/

namespace Choreo.Node

variable (w : Surroundings)

theorem initAll_cons (first : Nat) (n : Node) (rest : List Node) :
    initAll w first (n :: rest) =
      ((n.init w first).1 :: (initAll w (first + n.size) rest).1,
        (n.init w first).2 ++ (initAll w (first + n.size) rest).2) := by
  simp [initAll]

theorem initAll_append (first : Nat) (before after : List Node) :
    initAll w first (before ++ after) =
      ((initAll w first before).1 ++ (initAll w (first + sizeAll before) after).1,
        (initAll w first before).2 ++ (initAll w (first + sizeAll before) after).2) := by
  induction before generalizing first with
  | nil => rfl
  | cons n rest ih =>
      rw [List.cons_append, initAll_cons, initAll_cons, ih, sizeAll, Nat.add_assoc]
      simp only [List.cons_append, List.append_assoc]

theorem initAll_length (first : Nat) (nodes : List Node) :
    (initAll w first nodes).1.length = nodes.length := by
  induction nodes generalizing first with
  | nil => rfl
  | cons n rest ih => rw [initAll_cons, List.length_cons, List.length_cons, ih]

theorem mem_initAll {first : Nat} {nodes : List Node} {k : Node}
    (hk : k ∈ (initAll w first nodes).1) : ∃ c ∈ nodes, ∃ i, k = (c.init w i).1 := by
  induction nodes generalizing first with
  | nil => simp [initAll] at hk
  | cons n rest ih =>
      rw [initAll_cons] at hk
      rcases List.mem_cons.mp hk with rfl | hk
      · exact ⟨n, by simp, first, rfl⟩
      · obtain ⟨c, hc, i, rfl⟩ := ih hk
        exact ⟨c, by simp [hc], i, rfl⟩

theorem init_header (n : Node) (first : Nat) :
    ∃ fault, (n.init w first).1.header = n.header.initialised first fault := by
  cases n with
  | leaf h a => rw [init]; split <;> exact ⟨_, rfl⟩
  | sequence h nodes cursor => exact ⟨none, by simp [init, header]⟩
  | parallel h nodes running => exact ⟨none, by simp [init, header]⟩
  | repeating h child running =>
      cases child <;> exact ⟨_, by simp [init, header, checked, withHeader]; rfl⟩

@[simp]
theorem init_id (n : Node) (first : Nat) : (n.init w first).1.id = first := by
  obtain ⟨fault, hheader⟩ := n.init_header w first
  rw [id, hheader]
  rfl

@[simp]
theorem init_not_active (n : Node) (first : Nat) : (n.init w first).1.header.active = false := by
  obtain ⟨fault, hheader⟩ := n.init_header w first
  rw [hheader]
  rfl

@[simp]
theorem init_not_live (n : Node) (first : Nat) : (n.init w first).1.header.live = false := by
  obtain ⟨fault, hheader⟩ := n.init_header w first
  rw [hheader]
  rfl

theorem init_children (n : Node) (first : Nat) :
    (n.init w first).1.children = (initAll w (first + 1) n.children).1 := by
  cases n with
  | leaf h a => rw [init]; split <;> rfl
  | sequence h nodes cursor => simp [init, children]
  | parallel h nodes running => simp [init, children]
  | repeating h child running => cases child <;> simp [init, children, initAll, checked, withHeader]

theorem sound_init (n : Node) (first : Nat) : (n.init w first).1.Sound := by
  induction n generalizing first with
  | node n ih =>
    have hchildren : ∀ k ∈ (n.init w first).1.children, k.Sound ∧ k.header.active = false := by
      intro k hk
      rw [init_children] at hk
      obtain ⟨c, hc, i, rfl⟩ := mem_initAll w hk
      exact ⟨ih c hc i, by simp⟩
    have horder := inOrder_of_rest (by simp) fun k hk => (hchildren k hk).2
    exact (sound_iff _).mpr ⟨⟨by simp, by simp, horder⟩, fun k hk => (hchildren k hk).1⟩

theorem ids_initAll {nodes : List Node}
    (hnodes : ∀ c ∈ nodes, ∀ i, (c.init w i).1.ids = List.range' i c.size) (first : Nat) :
    (initAll w first nodes).1.flatMap ids = List.range' first (nodes.map size).sum := by
  induction nodes generalizing first with
  | nil => rfl
  | cons n rest ih =>
      rw [initAll_cons, List.flatMap_cons, hnodes n (by simp),
        ih fun c hc => hnodes c (by simp [hc]), List.range'_append_1, List.map_cons, List.sum_cons]

/-- **Numbering.** Initialising numbers a tree in pre-order, without gaps. -/
theorem ids_init (n : Node) (first : Nat) : (n.init w first).1.ids = List.range' first n.size := by
  induction n generalizing first with
  | node n ih =>
      rw [ids_eq, init_id, init_children, ids_initAll w ih, size_eq n, Nat.add_comm 1,
        List.range'_succ]

/-! ### Faults -/

theorem fault_range_initAll {nodes : List Node}
    (hnodes : ∀ n ∈ nodes, ∀ i, ∀ fault ∈ (n.init w i).2, i ≤ fault.node ∧ fault.node < i + n.size)
    (first : Nat) : ∀ fault ∈ (initAll w first nodes).2,
      first ≤ fault.node ∧ fault.node < first + sizeAll nodes := by
  induction nodes generalizing first with
  | nil => simp [initAll]
  | cons n rest ih =>
      intro fault hfault
      rw [initAll_cons, List.mem_append] at hfault
      rw [sizeAll]
      rcases hfault with hfault | hfault
      · have h := hnodes n (by simp) first fault hfault
        omega
      · have h := ih (fun k hk => hnodes k (by simp [hk])) (first + n.size) fault hfault
        omega

theorem fault_range_init (n : Node) (first : Nat) :
    ∀ fault ∈ (n.init w first).2, first ≤ fault.node ∧ fault.node < first + n.size := by
  induction n generalizing first with
  | node n ih =>
    have hall : ∀ fault ∈ (initAll w (first + 1) n.children).2,
        first ≤ fault.node ∧ fault.node < first + n.size := by
      intro fault hfault
      have h := fault_range_initAll w ih (first + 1) fault hfault
      rw [sizeAll_eq_sum] at h
      rw [size_eq]
      omega
    have hone : ∀ error : Option Fault, ∀ fault ∈ (n.checked first error).2,
        first ≤ fault.node ∧ fault.node < first + n.size := by
      intro error fault hfault
      obtain ⟨_, _, rfl⟩ := List.mem_map.mp hfault
      change first ≤ first ∧ first < first + n.size
      rw [size_eq]
      omega
    cases n with
    | leaf h a =>
        rw [init]
        split
        · exact fun fault hfault => by simp [checked] at hfault
        · exact hone _
    | sequence h nodes cursor => exact hall
    | parallel h nodes running => exact hall
    | repeating h child running =>
        cases child with
        | none => exact hone _
        | some child =>
            intro fault hfault
            exact hall fault (by simpa [children, initAll_cons, initAll, init] using hfault)

end Choreo.Node
