import Choreo.Proofs.Node.Numbering
import Choreo.Proofs.Node.Pruning
import Mathlib.Data.List.Nodup

/-!
# Pruning before a check

A tree is pruned of the dead children of its sequences before it is checked, by asking of each child
whether it would pass. The check then finds the tree that it would have found anyway, without those
children; but it counts fewer nodes, so that a node that is left has a number of its own in each of the
two trees.
-/

namespace Choreo

namespace Node

mutual

/-- The tree without those children of sequences, at any depth, that do not stay. -/
def prune (stays : Node → Bool) : Node → Node
  | leaf h a => leaf h a
  | sequence h children cursor => sequence h (pruneStaying stays children) cursor
  | parallel h children running => parallel h (pruneAll stays children) running
  | repeating h none running => repeating h none running
  | repeating h (some child) running => repeating h (some (prune stays child)) running

def pruneStaying (stays : Node → Bool) : List Node → List Node
  | [] => []
  | n :: rest =>
    if stays n then prune stays n :: pruneStaying stays rest else pruneStaying stays rest

def pruneAll (stays : Node → Bool) : List Node → List Node
  | [] => []
  | n :: rest => prune stays n :: pruneAll stays rest

end

/-- Enabled, and passes the check of its entity. -/
def passes (w : Surroundings) (n : Node) : Bool := (n.init w 0).1.header.able

/-- Enabled, and passes the check of its entity as an action of a flat script. -/
def passesFlat (w : Surroundings) (n : Node) : Bool := (n.initFlat w 0).1.header.able

end Node

/-! ### Numbers -/

/-- Of the numbers in a block the listed ones are counted on from a new place, and the others have no
new number. -/
structure Numbers (number : Nat → Option Nat) (first size : Nat) (ids : List Nat) (first' : Nat) :
    Prop where
  kept : ids.map number = (List.range' first' ids.length).map some
  dropped : ∀ i, first ≤ i → i < first + size → i ∉ ids → number i = none

namespace Numbers

variable {number : Nat → Option Nat} {first first' size size' : Nat} {ids more : List Nat}

theorem split (h : Numbers number first (size + size') (ids ++ more) first')
    (hids : ∀ i ∈ ids, i < first + size) (hmore : ∀ i ∈ more, first + size ≤ i) :
    Numbers number first size ids first' ∧
      Numbers number (first + size) size' more (first' + ids.length) := by
  obtain ⟨hkept, hdropped⟩ := h
  rw [List.map_append, List.length_append, ← List.range'_append_1, List.map_append] at hkept
  obtain ⟨hleft, hright⟩ := List.append_inj hkept (by simp)
  refine ⟨⟨hleft, fun i hlow hhigh hnot => ?_⟩, ⟨hright, fun i hlow hhigh hnot => ?_⟩⟩
  · refine hdropped i hlow (by omega) fun hmem => ?_
    rcases List.mem_append.mp hmem with hmem | hmem
    · exact hnot hmem
    · have := hmore i hmem
      omega
  · refine hdropped i (by omega) (by omega) fun hmem => ?_
    rcases List.mem_append.mp hmem with hmem | hmem
    · have := hids i hmem
      omega
    · exact hnot hmem

theorem head (h : Numbers number first (1 + size) (first :: more) first')
    (hmore : ∀ i ∈ more, first + 1 ≤ i) :
    number first = some first' ∧ Numbers number (first + 1) size more (first' + 1) := by
  have h : Numbers number first (1 + size) ([first] ++ more) first' := h
  obtain ⟨hfirst, hrest⟩ := h.split (by simp) hmore
  exact ⟨by simpa using hfirst.kept, hrest⟩

/-- The members of a list are numbered by their places in it. -/
theorem idxOf (hids : ids.Nodup) (first size : Nat) :
    Numbers (fun i => ids.idxOf? i) first size ids 0 := by
  refine ⟨?_, fun i _ _ hnot => List.idxOf?_eq_none_iff.mpr hnot⟩
  apply List.ext_getElem
  · simp
  intro place hplace _
  have hlt : place < ids.length := by simpa using hplace
  have hfound : ids.idxOf? ids[place] = some place := by
    refine List.idxOf?_eq_some_iff.mpr ⟨hlt, rfl, fun earlier hearlier heq => ?_⟩
    have hsame := (List.Nodup.getElem_inj_iff hids).mp heq
    omega
  simpa using hfound

end Numbers

/-! ### Initialising -/

def NodeFault.retell (number : Nat → Option Nat) (f : NodeFault) : Option NodeFault :=
  (number f.node).map fun i => { f with node := i }

namespace Node

variable {w : Surroundings} {number : Nat → Option Nat} {first first' : Nat} {nodes : List Node}

theorem pruneStaying_eq (stays : Node → Bool) (nodes : List Node) :
    pruneStaying stays nodes = (nodes.filter stays).map (prune stays) := by
  induction nodes with
  | nil => rfl
  | cons n rest ih => cases hstays : stays n <;> simp [pruneStaying, hstays, ih]

theorem pruneAll_eq (stays : Node → Bool) (nodes : List Node) :
    pruneAll stays nodes = nodes.map (prune stays) := by
  induction nodes with
  | nil => rfl
  | cons n rest ih => rw [pruneAll, ih, List.map_cons]

@[simp]
theorem prune_header (stays : Node → Bool) (n : Node) : (n.prune stays).header = n.header := by
  cases n with
  | repeating h child running => cases child <;> rfl
  | _ => rfl

@[simp]
theorem prune_id (stays : Node → Bool) (n : Node) : (n.prune stays).id = n.id := by
  rw [id, id, prune_header]

theorem flatMap_ids_prune_sublist {stays : Node → Bool} (looked : Node → Bool)
    (hnodes : ∀ c ∈ nodes, (c.prune stays).ids.Sublist c.ids) :
    ((nodes.filter looked).flatMap fun c => (c.prune stays).ids).Sublist (nodes.flatMap ids) := by
  induction nodes with
  | nil => exact List.Sublist.refl _
  | cons n rest ih =>
      have hrest := ih fun c hc => hnodes c (by simp [hc])
      rw [List.filter_cons, List.flatMap_cons]
      split
      · rw [List.flatMap_cons]
        exact (hnodes n (by simp)).append hrest
      · exact hrest.trans (List.sublist_append_right _ _)

theorem ids_prune_sublist (stays : Node → Bool) (n : Node) :
    (n.prune stays).ids.Sublist n.ids := by
  induction n with
  | node n ih =>
    have hbelow : ((n.prune stays).children.flatMap ids).Sublist (n.children.flatMap ids) := by
      cases n with
      | leaf h a => exact List.Sublist.refl _
      | sequence h nodes cursor =>
          rw [prune, pruneStaying_eq, children, List.flatMap_map]
          exact flatMap_ids_prune_sublist stays ih
      | parallel h nodes running =>
          have hall := flatMap_ids_prune_sublist (fun _ => true) ih
          rw [List.filter_true] at hall
          rw [prune, pruneAll_eq, children, List.flatMap_map]
          exact hall
      | repeating h child running =>
          cases child with
          | none => exact List.Sublist.refl _
          | some child => simpa [prune, children] using ih child (by simp [children])
    rw [ids_eq, ids_eq, prune_id]
    exact hbelow.cons_cons _

theorem init_able (w : Surroundings) (n : Node) (first : Nat) :
    (n.init w first).1.header.able = n.passes w := by
  have hraise := n.init_raise w 0 first
  rw [Nat.zero_add] at hraise
  rw [hraise, passes, raise, renumber_header]
  rfl

/-- The numbers that pruning leaves of a tree that has been initialised. -/
def leftIds (w : Surroundings) (first : Nat) (n : Node) : List Nat :=
  ((n.init w first).1.prune (·.header.able)).ids

theorem mem_leftIds {n : Node} {i : Nat} (hi : i ∈ n.leftIds w first) :
    first ≤ i ∧ i < first + n.size := by
  have hmem := (ids_prune_sublist _ _).subset hi
  rwa [ids_init, List.mem_range'_1] at hmem

/-- The numbers that pruning leaves of the children that are looked at. -/
def leftIdsAll (w : Surroundings) (looked : Node → Bool) (first : Nat) (nodes : List Node) : List Nat :=
  ((initAll w first nodes).1.filter looked).flatMap fun c => (c.prune (·.header.able)).ids

theorem leftIdsAll_cons (looked : Node → Bool) (n : Node) (rest : List Node) :
    leftIdsAll w looked first (n :: rest) =
      (if looked (n.init w first).1 then n.leftIds w first else []) ++
        leftIdsAll w looked (first + n.size) rest := by
  rw [leftIdsAll, initAll_cons, List.filter_cons]
  split <;> rfl

theorem le_of_mem_leftIdsAll {looked : Node → Bool} {i : Nat}
    (hi : i ∈ leftIdsAll w looked first nodes) : first ≤ i := by
  induction nodes generalizing first with
  | nil => simp [leftIdsAll, initAll] at hi
  | cons n rest ih =>
      rw [leftIdsAll_cons, List.mem_append] at hi
      rcases hi with hi | hi
      · split at hi
        · exact (mem_leftIds hi).1
        · simp at hi
      · have := ih hi
        omega

theorem leftIds_leaf (h : Header) (a : Leaf) : (leaf h a).leftIds w first = [first] := by
  rw [leftIds, ids_eq, prune_id, init_id, init]
  split <;> rfl

theorem leftIds_sequence (h : Header) (nodes : List Node) (cursor : Cursor) :
    (sequence h nodes cursor).leftIds w first =
      first :: leftIdsAll w (·.header.able) (first + 1) nodes := by
  rw [leftIds, ids_eq, prune_id, init_id, init, prune, pruneStaying_eq]
  simp only [children, List.flatMap_map]
  rfl

theorem leftIds_parallel (h : Header) (nodes : List Node) (running : List Bool) :
    (parallel h nodes running).leftIds w first =
      first :: leftIdsAll w (fun _ => true) (first + 1) nodes := by
  rw [leftIds, ids_eq, prune_id, init_id, init, prune, pruneAll_eq, leftIdsAll, List.filter_true]
  simp only [children, List.flatMap_map]

theorem leftIds_repeating (h : Header) (child : Node) (running : Bool) :
    (repeating h (some child) running).leftIds w first = first :: child.leftIds w (first + 1) := by
  rw [leftIds, ids_eq, prune_id, init_id, init, prune]
  simp only [children, Option.toList_some, List.flatMap_singleton]
  rfl

/-- What is known of a tree that is initialised in full, and of the same tree initialised after it has
been pruned. -/
structure InitPruned (w : Surroundings) (number : Nat → Option Nat) (first first' : Nat) (n : Node) :
    Prop where
  node : Pruned number (n.init w first).1 ((n.prune (passes w)).init w first').1
  faults : (n.init w first).2.filterMap (NodeFault.retell number) =
    ((n.prune (passes w)).init w first').2
  size : (n.leftIds w first).length = (n.prune (passes w)).size

theorem faults_dropped {size : Nat} {faults : List NodeFault}
    (hnone : ∀ i, first ≤ i → i < first + size → number i = none)
    (hfaults : ∀ f ∈ faults, first ≤ f.node ∧ f.node < first + size) :
    faults.filterMap (NodeFault.retell number) = [] := by
  refine List.filterMap_eq_nil_iff.mpr fun f hf => ?_
  obtain ⟨hlow, hhigh⟩ := hfaults f hf
  rw [NodeFault.retell, hnone f.node hlow hhigh]
  rfl

/-- The children of a parallel are all looked at, those of a sequence only if they are able. -/
structure InitPrunedAll (w : Surroundings) (number : Nat → Option Nat) (looked asked : Node → Bool)
    (first first' : Nat) (nodes : List Node) : Prop where
  alike : List.Forall₂ (Pruned number) ((initAll w first nodes).1.filter looked)
    (initAll w first' ((nodes.filter asked).map (prune (passes w)))).1
  dropped : ∀ k ∈ (initAll w first nodes).1, looked k = false → number k.id = none
  faults : (initAll w first nodes).2.filterMap (NodeFault.retell number) =
    (initAll w first' ((nodes.filter asked).map (prune (passes w)))).2
  size : (leftIdsAll w looked first nodes).length =
    sizeAll ((nodes.filter asked).map (prune (passes w)))

theorem initPrunedAll {looked asked : Node → Bool}
    (hasked : ∀ c ∈ nodes, ∀ i, looked (c.init w i).1 = asked c)
    (hnodes : ∀ c ∈ nodes, ∀ first first',
      Numbers number first c.size (c.leftIds w first) first' → InitPruned w number first first' c)
    (h : Numbers number first (sizeAll nodes) (leftIdsAll w looked first nodes) first') :
    InitPrunedAll w number looked asked first first' nodes := by
  induction nodes generalizing first first' with
  | nil => exact ⟨.nil, by simp [initAll], rfl, rfl⟩
  | cons n rest ih =>
      have ih := @ih (first + n.size) (first' + (if asked n then n.leftIds w first else []).length)
        (fun c hc => hasked c (by simp [hc])) fun c hc => hnodes c (by simp [hc])
      have hlooked := hasked n (by simp) first
      rw [sizeAll, leftIdsAll_cons, hlooked] at h
      have hids : ∀ i ∈ (if asked n then n.leftIds w first else []), i < first + n.size := by
        intro i hi
        split at hi
        · exact (mem_leftIds hi).2
        · simp at hi
      obtain ⟨hn, hrest⟩ := h.split hids fun i hi => le_of_mem_leftIdsAll hi
      obtain ⟨hafter, hdropped, hmore, hsize⟩ := ih hrest
      cases hstays : asked n with
      | true =>
          rw [hstays] at hlooked
          simp only [hstays, ↓reduceIte] at hn hafter hmore
          obtain ⟨hnode, hfaults, hleft⟩ := hnodes n (by simp) first first' hn
          rw [hleft] at hafter hmore
          refine ⟨?_, ?_, ?_, ?_⟩
          · rw [initAll_cons, List.filter_cons_of_pos hlooked, List.filter_cons_of_pos hstays,
              List.map_cons, initAll_cons]
            exact .cons hnode hafter
          · intro k hk hnot
            rw [initAll_cons] at hk
            rcases List.mem_cons.mp hk with rfl | hk
            · rw [hlooked] at hnot
              contradiction
            · exact hdropped k hk hnot
          · rw [initAll_cons, List.filter_cons_of_pos hstays, List.map_cons, initAll_cons,
              List.filterMap_append, hfaults, hmore]
          · rw [leftIdsAll_cons, if_pos hlooked, List.filter_cons_of_pos hstays, List.map_cons, sizeAll,
              List.length_append, hleft, hsize]
      | false =>
          have hnot : ¬ asked n = true := by simp [hstays]
          rw [hstays] at hlooked
          simp only [hstays, Bool.false_eq_true, ↓reduceIte] at hn hafter hmore
          have hnone : ∀ i, first ≤ i → i < first + n.size → number i = none :=
            fun i hlow hhigh => hn.dropped i hlow hhigh (by simp)
          have hpositive : 0 < n.size := by
            rw [size_eq]
            omega
          refine ⟨?_, ?_, ?_, ?_⟩
          · rw [initAll_cons, List.filter_cons_of_neg (by simp [hlooked]),
              List.filter_cons_of_neg hnot]
            exact hafter
          · intro k hk hkNot
            rw [initAll_cons] at hk
            rcases List.mem_cons.mp hk with rfl | hk
            · rw [init_id]
              exact hnone first le_rfl (by omega)
            · exact hdropped k hk hkNot
          · rw [initAll_cons, List.filter_cons_of_neg hnot, List.filterMap_append,
              faults_dropped hnone (n.fault_range_init w first), hmore]
            rfl
          · rw [leftIdsAll_cons, if_neg (by simp [hlooked]), List.filter_cons_of_neg hnot,
              List.nil_append, hsize]

theorem thinned_of_filter {nodes' : List Node}
    (h : List.Forall₂ (Pruned number) (nodes.filter (·.header.able)) nodes')
    (hdead : ∀ k ∈ nodes, k.header.able = false → k.Dead number) :
    Thinned number (Pruned number) nodes nodes' := by
  induction nodes generalizing nodes' with
  | nil =>
      cases h
      exact .nil
  | cons n rest ih =>
      have hrest : ∀ k ∈ rest, k.header.able = false → k.Dead number :=
        fun k hk => hdead k (by simp [hk])
      cases hable : n.header.able with
      | true =>
          have hfilter : (n :: rest).filter (·.header.able) = n :: rest.filter (·.header.able) := by
            simp [hable]
          rw [hfilter] at h
          cases h with
          | cons hn h => exact .keep hable hn (ih h hrest)
      | false =>
          have hfilter : (n :: rest).filter (·.header.able) = rest.filter (·.header.able) := by
            simp [hable]
          rw [hfilter] at h
          exact .drop (hdead n (by simp) hable) (ih h hrest)

theorem renamed_initialised {h : Header} (fault : Option Fault)
    (hfirst : number first = some first') :
    (h.initialised first fault).Renamed number (h.initialised first' fault) :=
  ⟨hfirst, rfl⟩

/-- **Pruning before a check is pruning after it**, but for the numbers. -/
theorem initPruned (n : Node) (h : Numbers number first n.size (n.leftIds w first) first') :
    InitPruned w number first first' n := by
  induction n generalizing first first' with
  | node n ih =>
    have hfault : ∀ error : Option Fault, number first = some first' →
        (error.toList.map fun error => NodeFault.mk first n.kind error).filterMap
            (NodeFault.retell number) =
          error.toList.map fun error => NodeFault.mk first' n.kind error := by
      intro error hfirst
      cases error <;> simp [NodeFault.retell, hfirst]
    cases n with
    | leaf header a =>
        rw [leftIds_leaf] at h
        have hfirst : number first = some first' := by simpa using h.kept
        refine ⟨?_, ?_, by rw [leftIds_leaf]; rfl⟩
        · rw [prune, init, init]
          split <;> exact .leaf (renamed_initialised _ hfirst)
        · rw [prune, init, init]
          split
          · exact hfault none hfirst
          · exact hfault (some _) hfirst
    | sequence header nodes cursor =>
        rw [leftIds_sequence] at h
        obtain ⟨hfirst, hbelow⟩ := h.head fun i hi => le_of_mem_leftIdsAll hi
        have hall : InitPrunedAll w number (·.header.able) (passes w) (first + 1) (first' + 1)
            nodes :=
          initPrunedAll (fun c _ i => c.init_able w i) (fun c hc _ _ hc' => ih c hc hc') hbelow
        obtain ⟨hnodes, hdropped, hfaults, hsize⟩ := hall
        have hdead : ∀ k ∈ (initAll w (first + 1) nodes).1, k.header.able = false →
            k.Dead number := by
          intro k hk hable
          obtain ⟨c, _, i, rfl⟩ := mem_initAll w hk
          exact ⟨hable, by simp, hdropped _ hk hable⟩
        refine ⟨?_, ?_, ?_⟩
        · rw [prune, pruneStaying_eq, init, init]
          exact .sequence (renamed_initialised none hfirst) (thinned_of_filter hnodes hdead)
            (by simp [Header.initialised])
        · rw [prune, pruneStaying_eq, init, init]
          exact hfaults
        · rw [leftIds_sequence, List.length_cons, hsize, prune, pruneStaying_eq, size, Nat.add_comm]
    | parallel header nodes running =>
        rw [leftIds_parallel] at h
        obtain ⟨hfirst, hbelow⟩ := h.head fun i hi => le_of_mem_leftIdsAll hi
        have hall : InitPrunedAll w number (fun _ => true) (fun _ => true) (first + 1) (first' + 1)
            nodes :=
          initPrunedAll (fun _ _ _ => rfl) (fun c hc _ _ hc' => ih c hc hc') hbelow
        obtain ⟨hnodes, _, hfaults, hsize⟩ := hall
        rw [List.filter_true] at hnodes hfaults hsize
        rw [List.filter_true] at hnodes
        refine ⟨?_, ?_, ?_⟩
        · rw [prune, pruneAll_eq, init, init]
          exact .parallel (renamed_initialised none hfirst) hnodes
        · rw [prune, pruneAll_eq, init, init]
          exact hfaults
        · rw [leftIds_parallel, List.length_cons, hsize, prune, pruneAll_eq, size, Nat.add_comm]
    | repeating header child running =>
        cases child with
        | none =>
            have hleft : (repeating header none running).leftIds w first = [first] := rfl
            rw [hleft] at h
            have hfirst : number first = some first' := by simpa using h.kept
            exact ⟨.vacant (renamed_initialised _ hfirst), hfault (some .missingChild) hfirst, rfl⟩
        | some child =>
            rw [leftIds_repeating] at h
            obtain ⟨hfirst, hbelow⟩ := h.head fun i hi => (mem_leftIds hi).1
            obtain ⟨hnode, hfaults, hsize⟩ := ih child (by simp [children]) hbelow
            refine ⟨.repeating (renamed_initialised none hfirst) hnode, hfaults, ?_⟩
            rw [leftIds_repeating, List.length_cons, hsize, prune, size, Nat.add_comm]

/-! ### Initialising a flat list -/

/-- The numbers that pruning leaves of a flat list that has been initialised. -/
def leftFlatIds (w : Surroundings) (first : Nat) (nodes : List Node) : List Nat :=
  ((initFlatAll w first nodes).1.filter (·.header.able)).map id

theorem initFlat_leaf {n : Node} (hleaf : n.isComposite = false) (first : Nat) :
    n.initFlat w first = n.init w first := by
  rw [initFlat, if_neg (by simp [hleaf])]

theorem isComposite_of_passesFlat {n : Node} (h : n.passesFlat w = true) :
    n.isComposite = false := by
  by_contra hcomposite
  rw [passesFlat, initFlat, if_pos (by simpa using hcomposite), reject, checked, withHeader_header,
    Header.able] at h
  simp [Header.initialised] at h

theorem initFlat_able (w : Surroundings) (n : Node) (first : Nat) :
    (n.initFlat w first).1.header.able = n.passesFlat w := by
  cases hcomposite : n.isComposite with
  | true =>
      rw [passesFlat, initFlat, initFlat, if_pos hcomposite, if_pos hcomposite, reject, reject, checked,
        checked, withHeader_header, withHeader_header]
      rfl
  | false =>
      rw [passesFlat, initFlat_leaf hcomposite, initFlat_leaf hcomposite, init_able, init_able]

theorem initFlat_id (w : Surroundings) (n : Node) (first : Nat) : (n.initFlat w first).1.id = first := by
  rw [initFlat]
  split
  · rw [reject, checked, id, withHeader_header]
    rfl
  · rw [init_id]

theorem initFlat_not_live (w : Surroundings) (n : Node) (first : Nat) :
    (n.initFlat w first).1.header.live = false := by
  rw [initFlat]
  split
  · rw [reject, checked, withHeader_header]
    rfl
  · rw [init_not_live]

theorem initFlat_fault_node (n : Node) (first : Nat) :
    ∀ f ∈ (n.initFlat w first).2, first ≤ f.node ∧ f.node < first + 1 := by
  intro f hf
  rw [initFlat] at hf
  split at hf
  · obtain ⟨_, _, rfl⟩ := List.mem_map.mp hf
    exact ⟨le_rfl, Nat.lt_succ_self first⟩
  · next hcomposite =>
      obtain ⟨h, a, rfl⟩ := exists_leaf (Bool.eq_false_iff.mpr hcomposite)
      exact (leaf h a).fault_range_init w first f hf

theorem leftFlatIds_cons (n : Node) (rest : List Node) :
    leftFlatIds w first (n :: rest) =
      (if n.passesFlat w then [first] else []) ++ leftFlatIds w (first + 1) rest := by
  have hcons : (initFlatAll w first (n :: rest)).1 =
      (n.initFlat w first).1 :: (initFlatAll w (first + 1) rest).1 := rfl
  rw [leftFlatIds, hcons, List.filter_cons, initFlat_able]
  split
  · rw [List.map_cons, initFlat_id]
    rfl
  · rfl

theorem le_of_mem_leftFlatIds {i : Nat} (hi : i ∈ leftFlatIds w first nodes) : first ≤ i := by
  induction nodes generalizing first with
  | nil => simp [leftFlatIds, initFlatAll] at hi
  | cons n rest ih =>
      rw [leftFlatIds_cons, List.mem_append] at hi
      rcases hi with hi | hi
      · split at hi
        · rw [List.mem_singleton.mp hi]
        · simp at hi
      · have := ih hi
        omega

theorem nodup_leftFlatIds (first : Nat) (nodes : List Node) : (leftFlatIds w first nodes).Nodup := by
  induction nodes generalizing first with
  | nil => exact List.nodup_nil
  | cons n rest ih =>
      rw [leftFlatIds_cons]
      split
      · refine List.nodup_cons.mpr ⟨fun hmem => ?_, ih (first + 1)⟩
        have := le_of_mem_leftFlatIds hmem
        omega
      · exact ih (first + 1)

theorem thinned_initFlatAll
    (h : Numbers number first nodes.length (leftFlatIds w first nodes) first') :
    Thinned number (Pruned number) (initFlatAll w first nodes).1
        (initFlatAll w first' (nodes.filter (passesFlat w))).1 ∧
      (initFlatAll w first nodes).2.filterMap (NodeFault.retell number) =
        (initFlatAll w first' (nodes.filter (passesFlat w))).2 := by
  induction nodes generalizing first first' with
  | nil => exact ⟨.nil, rfl⟩
  | cons n rest ih =>
      have hable := n.initFlat_able w first
      rw [List.length_cons, Nat.add_comm, leftFlatIds_cons] at h
      cases hpasses : n.passesFlat w with
      | true =>
          simp only [hpasses, ↓reduceIte, List.singleton_append] at h
          obtain ⟨hfirst, hrest⟩ := h.head fun i hi => le_of_mem_leftFlatIds hi
          obtain ⟨hnodes, hmore⟩ := ih hrest
          have hleaf := isComposite_of_passesFlat hpasses
          obtain ⟨header, a, rfl⟩ := exists_leaf hleaf
          obtain ⟨hnode, hfaults, _⟩ : InitPruned w number first first' (leaf header a) := by
            refine initPruned _ ?_
            rw [leftIds_leaf]
            refine ⟨by simpa using hfirst, fun i hlow hhigh hnot => ?_⟩
            rw [size] at hhigh
            rw [List.mem_singleton] at hnot
            omega
          rw [prune] at hnode hfaults
          rw [List.filter_cons_of_pos hpasses, initFlatAll, initFlatAll, initFlat_leaf hleaf,
            initFlat_leaf hleaf]
          refine ⟨.keep ?_ hnode hnodes, ?_⟩
          · rwa [hpasses, initFlat_leaf hleaf] at hable
          · rw [List.filterMap_append, hfaults, hmore]
      | false =>
          simp only [hpasses, Bool.false_eq_true, ↓reduceIte] at h
          obtain ⟨hnone, hrest⟩ := h.split (by simp) fun i hi => le_of_mem_leftFlatIds hi
          obtain ⟨hnodes, hmore⟩ := ih hrest
          have hnone : ∀ i, first ≤ i → i < first + 1 → number i = none :=
            fun i hlow hhigh => hnone.dropped i hlow hhigh (by simp)
          rw [List.filter_cons_of_neg (by simp [hpasses]), initFlatAll]
          refine ⟨.drop ⟨?_, n.initFlat_not_live w first, ?_⟩ hnodes, ?_⟩
          · rw [hable, hpasses]
          · rw [initFlat_id]
            exact hnone first le_rfl (by omega)
          · rw [List.filterMap_append, faults_dropped hnone (initFlat_fault_node n first), hmore]
            rfl

end Node

end Choreo
