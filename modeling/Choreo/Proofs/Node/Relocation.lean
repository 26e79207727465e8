import Choreo.Proofs.Node.Reordering
import Choreo.Proofs.Node.Retouch
import Choreo.Proofs.Node.Verdicts

/-!
# The numbers of a reordered tree

A tree whose parallel is reordered gets its numbers in another order. Apart from that, a check leaves
it as if it had been reordered afterwards: what a check finds with a node does not depend on where the
node stands. So the two trees match by a renumbering, which is read off the numbers of the tree that is
reordered afterwards.
-/

namespace Choreo

/-- Everything but the numbers. -/
def Retouch.unnumbered : Retouch := { header := fun h => { h with id := 0 } }

/-- Nothing but the numbers. -/
def Retouch.numbers : Retouch := { header := fun h => { id := h.id }, leaf := fun _ => .attack {} }

theorem map_modify {α β : Type} {f : α → β} {g : α → α} {g' : β → β} (h : ∀ x, f (g x) = g' (f x))
    (xs : List α) (i : Nat) : (xs.modify i g).map f = (xs.map f).modify i g' := by
  induction xs generalizing i with
  | nil => simp
  | cons x rest ih =>
      cases i with
      | zero => rw [List.modify_zero_cons, List.map_cons, List.map_cons, List.modify_zero_cons, h]
      | succ i =>
          rw [List.modify_succ_cons, List.map_cons, List.map_cons, List.modify_succ_cons, ih]

theorem map_idxOf {xs : List Nat} (hxs : xs.Nodup) : xs.map (xs.idxOf ·) = List.range xs.length := by
  refine List.ext_getElem (by simp) fun i hi _ => ?_
  rw [List.length_map] at hi
  rw [List.getElem_map, List.getElem_range, hxs.idxOf_getElem i hi]

namespace Node

variable {order path : List Nat} {n k : Node} {r : Retouch}

/-! ### Reordering and retouching -/

theorem retouch_kind_parallel (n : Node) : (n.retouch r).kind = .parallel ↔ n.kind = .parallel := by
  cases n with
  | leaf h a =>
      have hleaf : ∀ a : Leaf, a.kind ≠ .parallel := by
        intro a
        cases a <;> exact Kind.noConfusion
      exact iff_of_false (hleaf _) (hleaf a)
  | repeating h child running => rw [retouch_repeating]; rfl
  | _ => rfl

theorem retouch_permute (hflags : ∀ flags, r.flags flags = flags) (order : List Nat) (n : Node) :
    (n.permute order).retouch r = (n.retouch r).permute order := by
  by_cases hkind : n.kind = .parallel
  · obtain ⟨h, nodes, running, rfl⟩ := exists_parallel hkind
    rw [permute, retouch_parallel, retouch_parallel, permute, pick_map, hflags, hflags]
  · rw [permute_other hkind, permute_other (by rwa [Ne, retouch_kind_parallel])]

theorem retouch_onChild {change : Node → Node}
    (hchange : ∀ c, (change c).retouch r = change (c.retouch r)) (i : Nat) (n : Node) :
    (n.onChild i change).retouch r = (n.retouch r).onChild i change := by
  cases n with
  | leaf h a => rfl
  | sequence h nodes cursor =>
      rw [onChild, retouch_sequence, retouch_sequence, onChild, map_modify hchange]
  | parallel h nodes running =>
      rw [onChild, retouch_parallel, retouch_parallel, onChild, map_modify hchange]
  | repeating h child running =>
      rw [onChild, retouch_repeating, retouch_repeating, onChild]
      split
      · rw [Option.map_map, Option.map_map]
        exact congrArg (repeating _ · _) (congrArg (Option.map · child) (funext hchange))
      · rfl

theorem retouch_reorder (hflags : ∀ flags, r.flags flags = flags) (order path : List Nat)
    (n : Node) : (n.reorder order path).retouch r = (n.retouch r).reorder order path := by
  induction path generalizing n with
  | nil => exact retouch_permute hflags order n
  | cons i path ih => exact retouch_onChild ih i n

/-! ### Reordering before a check and after it -/

variable (w : Surroundings)

/-- The tree after a check, but for its numbers. -/
def checkup (n : Node) : Node := (n.init w 0).1.retouch .unnumbered

theorem renumber_eq_retouch (f : Nat → Nat) (n : Node) :
    n.renumber f = n.retouch { header := Header.renumber f } := by
  induction n with
  | node n ih =>
      have hchildren := List.map_congr_left ih
      cases n with
      | leaf h a => rfl
      | sequence h nodes cursor =>
          rw [renumber_sequence, retouch_sequence]
          exact congrArg (sequence _ · _) hchildren
      | parallel h nodes running =>
          rw [renumber_parallel, retouch_parallel]
          exact congrArg (parallel _ · _) hchildren
      | repeating h child running =>
          cases child with
          | none => rfl
          | some child =>
              have hchild := ih child (by simp [children])
              exact congrArg (repeating _ · _) (congrArg some hchild)

theorem retouch_renumber (f : Nat → Nat) (n : Node) :
    (n.renumber f).retouch .unnumbered = n.retouch .unnumbered := by
  rw [renumber_eq_retouch, retouch_retouch]
  rfl

theorem retouch_init (n : Node) (first : Nat) :
    (n.init w first).1.retouch .unnumbered = n.checkup w := by
  have hraise := n.init_raise w 0 first
  rw [Nat.zero_add] at hraise
  rw [hraise]
  exact retouch_renumber _ _

theorem retouch_initAll (nodes : List Node) (first : Nat) :
    (initAll w first nodes).1.map (retouch .unnumbered) = nodes.map (checkup w) := by
  induction nodes generalizing first with
  | nil => rfl
  | cons n rest ih => rw [initAll_cons, List.map_cons, List.map_cons, retouch_init, ih]

theorem checkup_sequence (h : Header) (nodes : List Node) (cursor : Cursor) :
    (sequence h nodes cursor).checkup w =
      sequence (h.initialised 0 none) (nodes.map (checkup w)) cursor := by
  rw [checkup, init, retouch_sequence, retouch_initAll]
  rfl

theorem checkup_parallel (h : Header) (nodes : List Node) (running : List Bool) :
    (parallel h nodes running).checkup w =
      parallel (h.initialised 0 none) (nodes.map (checkup w)) running := by
  rw [checkup, init, retouch_parallel, retouch_initAll]
  rfl

theorem checkup_repeating (h : Header) (child : Node) (running : Bool) :
    (repeating h (some child) running).checkup w =
      repeating (h.initialised 0 none) (some (child.checkup w)) running := by
  rw [checkup, init, retouch_repeating, Option.map_some, retouch_init]
  rfl

theorem checkup_permute (order : List Nat) (n : Node) :
    (n.permute order).checkup w = (n.checkup w).permute order := by
  by_cases hkind : n.kind = .parallel
  · obtain ⟨h, nodes, running, rfl⟩ := exists_parallel hkind
    rw [permute, checkup_parallel, checkup_parallel, permute, pick_map]
  · rw [permute_other hkind, permute_other (by rwa [Ne, checkup, retouch_kind_parallel, init_kind])]

theorem checkup_onChild {change : Node → Node}
    (hchange : ∀ c, (change c).checkup w = change (c.checkup w)) (i : Nat) (n : Node) :
    (n.onChild i change).checkup w = (n.checkup w).onChild i change := by
  cases n with
  | leaf h a =>
      obtain ⟨h', b, hleaf⟩ : ∃ h' b, (leaf h a).checkup w = leaf h' b := by
        cases hinit : a.init w with
        | ok b => exact ⟨_, b, by rw [checkup, init, hinit]; rfl⟩
        | error fault => exact ⟨_, a, by rw [checkup, init, hinit]; rfl⟩
      rw [onChild, hleaf]
      rfl
  | sequence h nodes cursor =>
      rw [onChild, checkup_sequence, checkup_sequence, onChild, map_modify hchange]
  | parallel h nodes running =>
      rw [onChild, checkup_parallel, checkup_parallel, onChild, map_modify hchange]
  | repeating h child running =>
      cases child with
      | none => cases i <;> rfl
      | some child =>
          cases i with
          | zero =>
              rw [onChild, if_pos rfl, Option.map_some, checkup_repeating, checkup_repeating, hchange]
              rfl
          | succ i =>
              rw [onChild_far rfl, onChild_far (by rw [checkup_repeating]; rfl)]

theorem checkup_reorder (order path : List Nat) (n : Node) :
    (n.reorder order path).checkup w = (n.checkup w).reorder order path := by
  induction path generalizing n with
  | nil => exact checkup_permute w order n
  | cons i path ih => exact checkup_onChild w ih i n

/-! ### The numbers themselves -/

theorem header_of_unnumbered {h k : Header} (hrest : { h with id := 0 } = { k with id := 0 })
    (hid : h.id = k.id) : h = k :=
  calc h
    _ = { { h with id := 0 } with id := h.id } := rfl
    _ = { { k with id := 0 } with id := k.id } := by rw [hrest, hid]
    _ = k := rfl

theorem all_eq_of_unnumbered {nodes nodes' : List Node}
    (heach : ∀ n ∈ nodes, ∀ k : Node, n.retouch .unnumbered = k.retouch .unnumbered →
      n.ids = k.ids → n = k)
    (hrest : nodes.map (retouch .unnumbered) = nodes'.map (retouch .unnumbered))
    (hids : nodes.flatMap ids = nodes'.flatMap ids) : nodes = nodes' := by
  induction nodes generalizing nodes' with
  | nil => exact (List.map_eq_nil_iff.mp hrest.symm).symm
  | cons c nodes ih =>
      obtain ⟨d, nodes', rfl, hd, hrest⟩ := List.map_eq_cons_iff.mp hrest.symm
      -- The list of numbers is cut where those of the first tree end.
      have hlength : c.ids.length = d.ids.length := by
        rw [length_ids, length_ids, ← size_retouch .unnumbered c, ← hd, size_retouch]
      rw [List.flatMap_cons, List.flatMap_cons] at hids
      obtain ⟨hfirst, hids⟩ := List.append_inj hids hlength
      have hc : c = d := heach c (by simp) d hd.symm hfirst
      have hnodes : nodes = nodes' := ih (fun e he => heach e (by simp [he])) hrest.symm hids
      rw [hc, hnodes]

/-- A tree is determined by its numbers and all the rest. -/
theorem eq_of_unnumbered (hrest : n.retouch .unnumbered = k.retouch .unnumbered)
    (hids : n.ids = k.ids) : n = k := by
  induction n generalizing k with
  | node n ih =>
    have hown : n.id :: n.children.flatMap ids = k.id :: k.children.flatMap ids := by
      rwa [ids_eq, ids_eq] at hids
    obtain ⟨hid, hbelow⟩ := List.cons.inj hown
    have hchildren : n.children = k.children := by
      refine all_eq_of_unnumbered (fun c hc d => ih c hc) ?_ hbelow
      rw [← retouch_children, ← retouch_children, hrest]
    have hheader : n.header = k.header := by
      have hretouched := congrArg header hrest
      rw [retouch_header, retouch_header] at hretouched
      exact header_of_unnumbered hretouched hid
    cases n with
    | leaf h a =>
        cases k with
        | leaf h' a' =>
            obtain rfl : h = h' := hheader
            obtain rfl : a = a' := (Node.leaf.inj hrest).2
            rfl
        | repeating h' child' running' => rw [retouch_repeating] at hrest; cases hrest
        | _ => cases hrest
    | sequence h nodes cursor =>
        cases k with
        | sequence h' nodes' cursor' =>
            obtain rfl : h = h' := hheader
            obtain rfl : nodes = nodes' := hchildren
            obtain rfl : cursor = cursor' := (Node.sequence.inj hrest).2.2
            rfl
        | repeating h' child' running' => rw [retouch_repeating] at hrest; cases hrest
        | _ => cases hrest
    | parallel h nodes running =>
        cases k with
        | parallel h' nodes' running' =>
            obtain rfl : h = h' := hheader
            obtain rfl : nodes = nodes' := hchildren
            obtain rfl : running = running' := (Node.parallel.inj hrest).2.2
            rfl
        | repeating h' child' running' => rw [retouch_repeating] at hrest; cases hrest
        | _ => cases hrest
    | repeating h child running =>
        rw [retouch_repeating] at hrest
        cases k with
        | repeating h' child' running' =>
            rw [retouch_repeating] at hrest
            obtain rfl : h = h' := hheader
            obtain rfl : child = child' := by
              cases child <;> cases child' <;> simp_all [children]
            obtain rfl : running = running' := (Node.repeating.inj hrest).2.2
            rfl
        | _ => cases hrest

theorem retouch_numbers_initAll (w w' : Surroundings) {nodes : List Node}
    (hnodes : ∀ n ∈ nodes, ∀ first,
      (n.init w first).1.retouch .numbers = (n.init w' first).1.retouch .numbers) (first : Nat) :
    (initAll w first nodes).1.map (retouch .numbers) =
      (initAll w' first nodes).1.map (retouch .numbers) := by
  induction nodes generalizing first with
  | nil => rfl
  | cons n rest ih =>
      rw [initAll_cons, initAll_cons, List.map_cons, List.map_cons, hnodes n (by simp),
        ih fun k hk => hnodes k (by simp [hk])]

/-- A check gives the same numbers whatever it finds. -/
theorem retouch_numbers_init (w w' : Surroundings) (n : Node) (first : Nat) :
    (n.init w first).1.retouch .numbers = (n.init w' first).1.retouch .numbers := by
  induction n generalizing first with
  | node n ih =>
      have hchildren := retouch_numbers_initAll w w' ih (first + 1)
      cases n with
      | leaf h a =>
          rw [init, init]
          cases a.init w <;> cases a.init w' <;> rfl
      | sequence h nodes cursor =>
          rw [init, init, retouch_sequence, retouch_sequence]
          exact congrArg (sequence _ · _) hchildren
      | parallel h nodes running =>
          rw [init, init, retouch_parallel, retouch_parallel]
          exact congrArg (parallel _ · _) hchildren
      | repeating h child running =>
          cases child with
          | none => rfl
          | some child =>
              rw [init, init, retouch_repeating, retouch_repeating]
              exact congrArg (repeating _ · _) (congrArg some (ih child (by simp [children]) _))

/-- The place of a node in the reordered tree, by its number in the tree as it was. -/
def place (order path : List Nat) (n : Node) (i : Nat) : Nat :=
  ((n.init {} 0).1.reorder order path).ids.idxOf i

theorem ids_reorder_init (w : Surroundings) (order path : List Nat) (n : Node) :
    ((n.init w 0).1.reorder order path).ids = ((n.init {} 0).1.reorder order path).ids := by
  have hids : ∀ n : Node, (n.retouch .numbers).ids = n.ids := ids_retouch fun _ => rfl
  rw [← hids, retouch_reorder fun _ => rfl, retouch_numbers_init w {}, ← retouch_reorder fun _ => rfl,
    hids]

/-! ### The nodes in another order -/

/-- What a node shows of itself, in pre-order. -/
def rows (n : Node) : List (Header × Kind) := n.preorder.map fun k => (k.header, k.kind)

theorem rows_eq (n : Node) : n.rows = (n.header, n.kind) :: n.children.flatMap rows := by
  rw [rows, preorder_eq, List.map_cons, List.map_flatMap]
  rfl

theorem ids_eq_rows (n : Node) : n.ids = n.rows.map fun row => row.1.id := by
  rw [rows, List.map_map]
  rfl

theorem onChild_kind (i : Nat) (change : Node → Node) (n : Node) :
    (n.onChild i change).kind = n.kind := by
  cases n <;> rfl

theorem onChild_children (i : Nat) (change : Node → Node) (n : Node) :
    (n.onChild i change).children = n.children.modify i change := by
  cases n with
  | leaf h a => simp [onChild, children]
  | repeating h child running => cases child <;> cases i <;> simp [onChild, children]
  | _ => rfl

theorem rows_modify {change : Node → Node} {nodes : List Node} {i : Nat}
    (hchange : ∀ c ∈ nodes[i]?, (change c).rows.Perm c.rows) :
    ((nodes.modify i change).flatMap rows).Perm (nodes.flatMap rows) := by
  induction nodes generalizing i with
  | nil => simp
  | cons n rest ih =>
      cases i with
      | zero =>
          rw [List.modify_zero_cons, List.flatMap_cons, List.flatMap_cons]
          exact (hchange n rfl).append_right _
      | succ i =>
          rw [List.modify_succ_cons, List.flatMap_cons, List.flatMap_cons]
          exact (ih hchange).append_left _

theorem rows_reorder (h : n.Reorderable order path) : (n.reorder order path).rows.Perm n.rows := by
  induction path generalizing n with
  | nil =>
      have hpermutable : n.Permutable order := h
      by_cases hkind : n.kind = .parallel
      · obtain ⟨header, nodes, running, rfl⟩ := exists_parallel hkind
        rw [rows_eq, rows_eq]
        exact ((pick_perm (hpermutable.order rfl)).flatMap_right rows).cons _
      · rw [reorder, permute_other hkind]
  | cons i path ih =>
      obtain ⟨_, hchild⟩ : FitChild i (Reorderable order path) n := h
      rw [rows_eq, rows_eq n, reorder, onChild_kind, onChild_children,
        (Inner.onChild i _).header]
      exact (rows_modify fun c hc => ih (hchild c hc)).cons _

/-! ### A check of the reordered tree -/

theorem rows_renumber (f : Nat → Nat) (n : Node) :
    (n.renumber f).rows = n.rows.map fun row => (row.1.renumber f, row.2) := by
  induction n with
  | node n ih =>
      have hkind : (n.renumber f).kind = n.kind := by
        cases n with
        | repeating h child running => rw [renumber_repeating]; rfl
        | _ => rfl
      rw [rows_eq, rows_eq n, renumber_children, renumber_header, hkind, List.map_cons,
        List.flatMap_map, List.map_flatMap]
      exact congrArg _ (List.flatMap_congr ih)

/-- The tree that is reordered before a check is the one that is reordered after it, renumbered. -/
theorem init_reorder (w : Surroundings) (h : (n.init w 0).1.Reorderable order path) :
    ((n.reorder order path).init w 0).1 =
      ((n.init w 0).1.reorder order path).renumber (n.place order path) := by
  generalize hafter : (n.init w 0).1.reorder order path = after
  have hids : after.ids.Perm (List.range n.size) := by
    have hrows := (rows_reorder h).map fun row => row.1.id
    rwa [← ids_eq_rows, ← ids_eq_rows, hafter, ids_init, ← List.range_eq_range'] at hrows
  have hplace : after.ids.map (n.place order path) = List.range after.ids.length := by
    have hnumbers : n.place order path = (after.ids.idxOf ·) := by
      funext i
      rw [place, ← ids_reorder_init w, hafter]
    rw [hnumbers]
    exact map_idxOf (hids.nodup_iff.mpr List.nodup_range)
  have hrest : ((n.reorder order path).init w 0).1.retouch .unnumbered =
      after.retouch .unnumbered := by
    rw [← hafter, retouch_reorder fun _ => rfl]
    exact checkup_reorder w order path n
  apply eq_of_unnumbered
  · rw [retouch_renumber, hrest]
  · have hsize : ((n.reorder order path).init w 0).1.size = after.size := by
      rw [← size_retouch .unnumbered, hrest, size_retouch]
    rw [ids_renumber, hplace, length_ids, ← hsize, ← length_ids, ids_init, List.length_range',
      List.range_eq_range']

theorem complaints_rows (n : Node) : n.preorder.filterMap complaint? =
    n.rows.filterMap fun row => row.1.fault.map fun error => ⟨row.1.id, row.2, error⟩ := by
  rw [rows, List.filterMap_map]
  rfl

/-- The reordered tree has the same faults. -/
theorem faults_reorder (w : Surroundings) (h : (n.init w 0).1.Reorderable order path) :
    ((n.reorder order path).init w 0).2.Perm
      ((n.init w 0).2.map (NodeFault.renumber (n.place order path))) := by
  have hrows := (rows_reorder h).filterMap fun row =>
    (row.1.renumber (n.place order path)).fault.map fun error =>
      (⟨(row.1.renumber (n.place order path)).id, row.2, error⟩ : NodeFault)
  have hmap : (n.init w 0).2.map (NodeFault.renumber (n.place order path)) =
      (n.init w 0).1.rows.filterMap fun row =>
        (row.1.renumber (n.place order path)).fault.map fun error =>
          (⟨(row.1.renumber (n.place order path)).id, row.2, error⟩ : NodeFault) := by
    rw [complaints_init, complaints_rows, List.map_filterMap]
    refine List.filterMap_congr fun row _ => ?_
    rw [Option.map_map]
    rfl
  rw [complaints_init, complaints_rows, init_reorder w h, rows_renumber, List.filterMap_map, hmap]
  exact hrows

/-! ### What is to be reordered, after a check -/

theorem getElem?_initAll (w : Surroundings) (first i : Nat) (nodes : List Node) :
    ∃ j, (initAll w first nodes).1[i]? = nodes[i]?.map fun n => (n.init w j).1 := by
  induction nodes generalizing first i with
  | nil => exact ⟨0, rfl⟩
  | cons n rest ih =>
      rw [initAll_cons]
      cases i with
      | zero => exact ⟨first, rfl⟩
      | succ i => exact ih _ i

theorem at?_init (w : Surroundings) {path : List Nat} {k : Node} (hat : n.at? path = some k)
    (first : Nat) : ∃ j, (n.init w first).1.at? path = some (k.init w j).1 := by
  induction path generalizing n first with
  | nil =>
      obtain rfl : n = k := Option.some.inj hat
      exact ⟨first, rfl⟩
  | cons i path ih =>
      rw [at?, Option.bind_eq_some_iff] at hat
      obtain ⟨c, hc, hat⟩ := hat
      obtain ⟨j, hj⟩ := getElem?_initAll w (first + 1) i n.children
      rw [hc, Option.map_some, ← init_children] at hj
      rw [at?, hj]
      exact ih hat j

theorem writeSet_init (w : Surroundings) (n : Node) (first : Nat) :
    (n.init w first).1.writeSet = n.writeSet := by
  refine writeSet_congr ?_
  have hjudged := n.judged_preorder w first
  generalize n.preorder = before at hjudged
  generalize (n.init w first).1.preorder = after at hjudged
  induction hjudged with
  | nil => rfl
  | cons h _ ih => rw [List.map_cons, List.map_cons, h.kind, ih]

theorem pairwise_apart_initAll (w : Surroundings) {nodes : List Node}
    (hapart : nodes.Pairwise Apart) (first : Nat) :
    (initAll w first nodes).1.Pairwise Apart := by
  induction nodes generalizing first with
  | nil => exact .nil
  | cons n rest ih =>
      obtain ⟨hn, hrest⟩ := List.pairwise_cons.mp hapart
      rw [initAll_cons]
      refine .cons ?_ (ih hrest _)
      intro k hk
      obtain ⟨c, hc, j, rfl⟩ := mem_initAll w hk
      rw [Apart, writeSet_init, writeSet_init]
      exact hn c hc

theorem reorderable_init (w : Surroundings) {h : Header} {nodes : List Node} {running : List Bool}
    (hat : n.at? path = some (.parallel h nodes running)) (hapart : nodes.Pairwise Apart)
    (horder : order.Perm (List.range nodes.length)) : (n.init w 0).1.Reorderable order path := by
  obtain ⟨j, hat⟩ := at?_init w hat 0
  refine reorderable_of_at? (n.sound_init w 0) hat (pairwise_apart_initAll w hapart (j + 1)) ?_
  rwa [initAll_length]

end Node

end Choreo
