import Choreo.Proofs.Node.Renumbering
import Mathlib.Data.List.Forall2

/-!
# Two trees in accord

Two trees of one shape are often run side by side, in surroundings that may differ, and are to stay
alike in all that matters. What matters is different from case to case; an `Accord` says which leaves
count as alike, whether the records of nodes that are out of use count as well, and which effects are
listened to. If the leaves keep an accord, every operation on the trees keeps it.
-/

namespace Choreo

structure Accord where
  /-- Also what no operation will look at is to agree. -/
  strict : Prop
  leaf : Header → Leaf → Leaf → Prop
  heard : Effect → Option Effect

namespace Accord

variable (A : Accord)

/-- The node's own record of its children is in use. -/
def Records (h : Header) : Prop := A.strict ∨ h.live = true

/-- The node's children are, or may come to be, in use. -/
def Reaches (h : Header) : Prop := A.strict ∨ h.live = true ∨ h.fault = none

def hear (effects : List Effect) : List Effect := effects.filterMap A.heard

/-- The leaves keep the accord through a tick, and the entities are active together. -/
structure Steady (m : Moment) (w w' : Surroundings) : Prop where
  active : w.active = w'.active
  isOver : ∀ {h a b}, h.live = true → A.leaf h a b → a.isOver = b.isOver
  rest : ∀ {h a b}, h.opened.live = false → A.leaf h a b → A.leaf h.opened a b
  start : ∀ {h a b}, h.opened.live = true → A.leaf h a b →
    A.leaf h.opened (a.start w).1 (b.start w').1 ∧
      A.hear ((a.start w).2.map .write) = A.hear ((b.start w').2.map .write)
  update : ∀ {h a b}, h.live = true → A.leaf h a b →
    A.leaf h (a.update m w).1 (b.update m w').1 ∧
      A.hear ((a.update m w).2.map .write) = A.hear ((b.update m w').2.map .write)
  close : ∀ {h a b}, A.leaf h a b → A.leaf h.closed a b
  finish : ∀ {h a b}, h.live = true → A.leaf h a b →
    A.hear (a.finish.map .write) = A.hear (b.finish.map .write)

variable {A}

theorem hear_append (effects more : List Effect) :
    A.hear (effects ++ more) = A.hear effects ++ A.hear more :=
  List.filterMap_append

theorem hear_cons_congr (e : Effect) {effects effects' : List Effect}
    (h : A.hear effects = A.hear effects') : A.hear (e :: effects) = A.hear (e :: effects') := by
  have hsplit : ∀ more, A.hear (e :: more) = A.hear [e] ++ A.hear more :=
    fun more => hear_append [e] more
  rw [hsplit effects, hsplit effects', h]

theorem records_of_opened {h : Header} (hlive : h.opened.live = false)
    (hrecords : A.Records h.opened) : A.Records h := by
  rcases hrecords with hstrict | hopened
  · exact Or.inl hstrict
  · rw [hlive] at hopened
    contradiction

theorem reaches_of_opened {h : Header} (hreaches : A.Reaches h.opened) : A.Reaches h := by
  rcases hreaches with hstrict | hopened | hfault
  · exact Or.inl hstrict
  · have hfault : h.fault.isNone = true := (Bool.and_eq_true_iff.mp hopened).2
    exact Or.inr (Or.inr (Option.isNone_iff_eq_none.mp hfault))
  · exact Or.inr (Or.inr hfault)

theorem records_of_closed {h : Header} (hrecords : A.Records h.closed) : A.Records h := by
  rcases hrecords with hstrict | hclosed
  · exact Or.inl hstrict
  · cases hclosed

theorem reaches_of_closed {h : Header} (hreaches : A.Reaches h.closed) : A.Reaches h := by
  rcases hreaches with hstrict | hclosed | hfault
  · exact Or.inl hstrict
  · cases hclosed
  · exact Or.inr (Or.inr hfault)

end Accord

namespace Node

inductive Like (A : Accord) : Node → Node → Prop
  | leaf {h : Header} {a b : Leaf} (own : A.leaf h a b) : Like A (leaf h a) (leaf h b)
  | sequence {h : Header} {nodes nodes' : List Node} {cursor cursor' : Cursor}
      (record : A.Records h → cursor = cursor')
      (below : A.Reaches h → List.Forall₂ (Like A) nodes nodes') :
      Like A (sequence h nodes cursor) (sequence h nodes' cursor')
  | parallel {h : Header} {nodes nodes' : List Node} {running running' : List Bool}
      (record : A.Records h → running = running')
      (below : A.Reaches h → List.Forall₂ (Like A) nodes nodes') :
      Like A (parallel h nodes running) (parallel h nodes' running')
  | repeating {h : Header} {child child' : Option Node} {running running' : Bool}
      (record : A.Records h → running = running')
      (below : A.Reaches h → List.Forall₂ (Like A) child.toList child'.toList) :
      Like A (repeating h child running) (repeating h child' running')

variable {A : Accord} {m : Moment} {w w' : Surroundings} {n k : Node}

theorem Like.header (h : Like A n k) : n.header = k.header := by
  cases h <;> rfl

theorem Like.id (h : Like A n k) : n.id = k.id := congrArg Header.id h.header

theorem Like.refl (hleaf : ∀ h a, A.leaf h a a) (n : Node) : Like A n n := by
  induction n with
  | node n ih =>
      have hbelow : List.Forall₂ (Like A) n.children n.children :=
        List.forall₂_same.mpr ih
      cases n with
      | leaf h a => exact .leaf (hleaf h a)
      | sequence h nodes cursor => exact .sequence (fun _ => rfl) fun _ => hbelow
      | parallel h nodes running => exact .parallel (fun _ => rfl) fun _ => hbelow
      | repeating h child running => exact .repeating (fun _ => rfl) fun _ => hbelow

theorem Like.isComplete (hA : A.Steady m w w') (h : Like A n k) (hlive : n.header.live = true) :
    n.isComplete = k.isComplete := by
  cases h with
  | leaf own => exact hA.isOver hlive own
  | sequence record _ => rw [record (Or.inr hlive)]; rfl
  | parallel record _ => rw [record (Or.inr hlive)]; rfl
  | repeating _ _ => rfl

theorem Like.hasStopped (hA : A.Steady m w w') (h : Like A n k) :
    n.hasStopped w = k.hasStopped w' := by
  have hheader := h.header
  have hover : n.isOver = k.isOver := by
    rw [isOver, isOver, ← hheader]
    cases hlive : n.header.live with
    | false => rfl
    | true => rw [h.isComplete hA hlive]
  rw [Node.hasStopped, Node.hasStopped, hover, hheader, hA.active]

/-- The results of an operation on each of two trees. -/
structure LikeAfter (A : Accord) (result result' : Node × List Effect) : Prop where
  node : Like A result.1 result'.1
  heard : A.hear result.2 = A.hear result'.2

structure AllLikeAfter (A : Accord) (result result' : List Node × List Effect) : Prop where
  nodes : List.Forall₂ (Like A) result.1 result'.1
  heard : A.hear result.2 = A.hear result'.2

theorem AllLikeAfter.of_forall₂ {turn turn' : Node → Node × List Effect} {nodes nodes' : List Node}
    (hlike : List.Forall₂ (Like A) nodes nodes')
    (hturn : ∀ n ∈ nodes, ∀ k, Like A n k → LikeAfter A (turn n) (turn' k)) :
    AllLikeAfter A (nodes.map fun n => (turn n).1, nodes.flatMap fun n => (turn n).2)
      (nodes'.map fun n => (turn' n).1, nodes'.flatMap fun n => (turn' n).2) := by
  induction hlike with
  | nil => exact ⟨.nil, rfl⟩
  | @cons n k rest rest' hn _ ih =>
      obtain ⟨hnode, hheard⟩ := hturn n (by simp) k hn
      obtain ⟨hnodes, hmore⟩ := ih fun n hn => hturn n (by simp [hn])
      refine ⟨.cons hnode hnodes, ?_⟩
      rw [List.flatMap_cons, List.flatMap_cons, Accord.hear_append, Accord.hear_append, hheard,
        hmore]

/-! ### Starting -/

theorem Like.opened (hA : A.Steady m w w') (h : Like A n k) (hlive : n.header.opened.live = false) :
    Like A (n.withHeader n.header.opened) (k.withHeader n.header.opened) := by
  cases h with
  | leaf own => exact .leaf (hA.rest hlive own)
  | sequence record below =>
      exact .sequence (fun h => record (Accord.records_of_opened hlive h))
        fun h => below (Accord.reaches_of_opened h)
  | parallel record below =>
      exact .parallel (fun h => record (Accord.records_of_opened hlive h))
        fun h => below (Accord.reaches_of_opened h)
  | repeating record below =>
      exact .repeating (fun h => record (Accord.records_of_opened hlive h))
        fun h => below (Accord.reaches_of_opened h)

theorem Like.start (hA : A.Steady m w w') (h : Like A n k) :
    LikeAfter A (n.start w) (k.start w') := by
  induction n generalizing k with
  | node n ih =>
    have hheader := h.header
    cases hlive : n.header.opened.live with
    | false =>
        rw [start_of_not_live w hlive, start_of_not_live w' (by rwa [← hheader]), ← hheader, ← h.id]
        exact ⟨h.opened hA hlive, rfl⟩
    | true =>
      have hreaches : A.Reaches n.header := Accord.reaches_of_opened (Or.inr (Or.inl hlive))
      cases h with
      | @leaf h a b own =>
          obtain ⟨hleaf, hheard⟩ := hA.start hlive own
          rw [start_leaf w h hlive, start_leaf w' h hlive]
          exact ⟨.leaf hleaf, Accord.hear_cons_congr _ hheard⟩
      | @sequence h nodes nodes' cursor cursor' record below =>
          rw [start_sequence w h hlive, start_sequence w' h hlive]
          exact ⟨.sequence (fun _ => rfl) fun _ => below hreaches, rfl⟩
      | @parallel h nodes nodes' running running' record below =>
          obtain ⟨hnodes, hheard⟩ :=
            AllLikeAfter.of_forall₂ (below hreaches) fun n hn k hlike => ih n hn hlike
          have hflags : (nodes.map fun _ => true) = nodes'.map fun _ => true := by
            rw [List.map_const', List.map_const', (below hreaches).length_eq]
          rw [start_parallel w h hlive, start_parallel w' h hlive]
          exact ⟨.parallel (fun _ => hflags) fun _ => hnodes, Accord.hear_cons_congr _ hheard⟩
      | @repeating h child child' running running' record below =>
          rw [start_repeating w h hlive, start_repeating w' h hlive]
          exact ⟨.repeating (fun _ => rfl) fun _ => below hreaches, rfl⟩

/-! ### Ending -/

theorem Like.closed (hA : A.Steady m w w') (h : Like A n k) :
    Like A (n.withHeader n.header.closed) (k.withHeader n.header.closed) := by
  cases h with
  | leaf own => exact .leaf (hA.close own)
  | sequence record below =>
      exact .sequence (fun h => record (Accord.records_of_closed h))
        fun h => below (Accord.reaches_of_closed h)
  | parallel record below =>
      exact .parallel (fun h => record (Accord.records_of_closed h))
        fun h => below (Accord.reaches_of_closed h)
  | repeating record below =>
      exact .repeating (fun h => record (Accord.records_of_closed h))
        fun h => below (Accord.reaches_of_closed h)

theorem AllLikeAfter.cons {rest rest' : List Node × List Effect} {first first' : Node × List Effect}
    (h : LikeAfter A first first') (hrest : AllLikeAfter A rest rest') :
    AllLikeAfter A (first.1 :: rest.1, first.2 ++ rest.2)
      (first'.1 :: rest'.1, first'.2 ++ rest'.2) := by
  refine ⟨.cons h.node hrest.nodes, ?_⟩
  rw [Accord.hear_append, Accord.hear_append, h.heard, hrest.heard]

theorem AllLikeAfter.skip {rest rest' : List Node × List Effect} (h : Like A n k)
    (hrest : AllLikeAfter A rest rest') :
    AllLikeAfter A (n :: rest.1, rest.2) (k :: rest'.1, rest'.2) :=
  ⟨.cons h hrest.nodes, hrest.heard⟩

theorem AllLikeAfter.rest {nodes nodes' : List Node} (h : List.Forall₂ (Like A) nodes nodes') :
    AllLikeAfter A (nodes, []) (nodes', []) :=
  ⟨h, rfl⟩

theorem finishAt_like {nodes nodes' : List Node} (hlike : List.Forall₂ (Like A) nodes nodes')
    (hfinish : ∀ n ∈ nodes, ∀ k, Like A n k → LikeAfter A n.finish k.finish) (cursor : Cursor) :
    AllLikeAfter A (finishAt cursor nodes) (finishAt cursor nodes') := by
  induction hlike generalizing cursor with
  | nil =>
      have hnil : finishAt cursor [] = ([], []) := by cases cursor <;> simp [finishAt]
      rw [hnil]
      exact .rest .nil
  | @cons n k rest rest' hn hrest ih =>
      have ih := ih fun n hn => hfinish n (by simp [hn])
      cases cursor using Cursor.headCases with
      | ready => exact .rest (.cons hn hrest)
      | finished => exact .rest (.cons hn hrest)
      | running =>
          have hfirst := hfinish n (by simp) k hn
          rw [finishAt_running, finishAt_running]
          exact ⟨.cons hfirst.node hrest, hfirst.heard⟩
      | shift cursor =>
          rw [finishAt_shift, finishAt_shift]
          exact .skip hn (ih cursor)

theorem finishRunning_like {nodes nodes' : List Node} (hlike : List.Forall₂ (Like A) nodes nodes')
    (hfinish : ∀ n ∈ nodes, ∀ k, Like A n k → LikeAfter A n.finish k.finish)
    (running : List Bool) :
    AllLikeAfter A (finishRunning running nodes) (finishRunning running nodes') := by
  induction hlike generalizing running with
  | nil => cases running <;> exact .rest .nil
  | @cons n k rest rest' hn hrest ih =>
      have ih := ih fun n hn => hfinish n (by simp [hn])
      cases running with
      | nil => exact .rest (.cons hn hrest)
      | cons flag running =>
          rw [finishRunning_cons, finishRunning_cons]
          cases flag with
          | false => exact .skip hn (ih running)
          | true => exact .cons (hfinish n (by simp) k hn) (ih running)

theorem Like.finish (hA : A.Steady m w w') (h : Like A n k) : LikeAfter A n.finish k.finish := by
  induction n generalizing k with
  | node n ih =>
    have hheader := h.header
    cases hactive : n.header.active with
    | false =>
        rw [finish_of_not_active hactive, finish_of_not_active (by rwa [← hheader])]
        exact ⟨h, rfl⟩
    | true =>
      cases hlive : n.header.live with
      | false =>
          rw [finish_of_not_live hactive hlive,
            finish_of_not_live (by rwa [← hheader]) (by rwa [← hheader]), ← hheader, ← h.id]
          exact ⟨h.closed hA, rfl⟩
      | true =>
        have hreaches : A.Reaches n.header := Or.inr (Or.inl hlive)
        have hrecords : A.Records n.header := Or.inr hlive
        cases h with
        | @leaf h a b own =>
            rw [finish_leaf h hactive hlive, finish_leaf h hactive hlive]
            refine ⟨.leaf (hA.close own), ?_⟩
            rw [Accord.hear_append, Accord.hear_append, hA.finish hlive own]
        | @sequence h nodes nodes' cursor cursor' record below =>
            obtain rfl := record hrecords
            obtain ⟨hnodes, hheard⟩ :=
              finishAt_like (below hreaches) (fun n hn k hlike => ih n hn hlike) cursor
            rw [finish_sequence h hactive hlive, finish_sequence h hactive hlive]
            refine ⟨.sequence (fun _ => rfl) fun _ => hnodes, ?_⟩
            rw [Accord.hear_append, Accord.hear_append, hheard]
        | @parallel h nodes nodes' running running' record below =>
            obtain rfl := record hrecords
            obtain ⟨hnodes, hheard⟩ :=
              finishRunning_like (below hreaches) (fun n hn k hlike => ih n hn hlike) running
            rw [finish_parallel h hactive hlive, finish_parallel h hactive hlive]
            refine ⟨.parallel (fun _ => rfl) fun _ => hnodes, ?_⟩
            rw [Accord.hear_append, Accord.hear_append, hheard]
        | @repeating h child child' running running' record below =>
            obtain rfl := record hrecords
            have hbelow := below hreaches
            rcases child with _ | child <;> rcases child' with _ | child'
            · rw [finish_vacant h hactive]
              exact ⟨.repeating (fun _ => rfl) fun _ => hbelow, rfl⟩
            · cases hbelow
            · cases hbelow
            have hchild : Like A child child' := (List.forall₂_cons.mp hbelow).1
            cases running with
            | false =>
                rw [finish_repeating_resting h hactive, finish_repeating_resting h hactive]
                exact ⟨.repeating (fun _ => rfl) fun _ => hbelow, rfl⟩
            | true =>
                obtain ⟨hnode, hheard⟩ := ih child (by simp [children]) hchild
                rw [finish_repeating_running h hactive hlive,
                  finish_repeating_running h hactive hlive]
                refine ⟨.repeating (fun _ => rfl) fun _ => .cons hnode .nil, ?_⟩
                rw [Accord.hear_append, Accord.hear_append, hheard]

/-! ### Updating -/

section Update

variable {bound : Nat}
  (hupdate : ∀ n k : Node, n.size < bound → Like A n k → LikeAfter A (n.update m w) (k.update m w'))
  (hA : A.Steady m w w')
include hupdate hA

theorem visit_like_of_lt (hn : n.size < bound) (h : Like A n k) :
    LikeAfter A ((n.visit m w).1, (n.visit m w).2.2) ((k.visit m w').1, (k.visit m w').2.2) ∧
      (n.visit m w).2.1 = (k.visit m w').2.1 := by
  have hstopped := h.hasStopped hA
  cases hstop : n.hasStopped w with
  | true =>
      rw [hstop] at hstopped
      rw [visit_of_hasStopped m w hstop, visit_of_hasStopped m w' hstopped.symm]
      exact ⟨h.finish hA, rfl⟩
  | false =>
      rw [hstop] at hstopped
      rw [visit_of_not_hasStopped m w hstop, visit_of_not_hasStopped m w' hstopped.symm]
      exact ⟨hupdate n k hn h, rfl⟩

theorem updateRunning_like_of_lt {nodes nodes' : List Node} (hnodes : ∀ n ∈ nodes, n.size < bound)
    (hlike : List.Forall₂ (Like A) nodes nodes') (running : List Bool) :
    AllLikeAfter A
        ((updateRunning m w false running nodes).1, (updateRunning m w false running nodes).2.2)
        ((updateRunning m w' false running nodes').1,
          (updateRunning m w' false running nodes').2.2) ∧
      (updateRunning m w false running nodes).2.1 =
        (updateRunning m w' false running nodes').2.1 := by
  induction hlike generalizing running with
  | nil => cases running <;> exact ⟨.rest .nil, rfl⟩
  | @cons n k rest rest' hn hrest ih =>
      have ih := ih fun n hn => hnodes n (by simp [hn])
      cases running with
      | nil => exact ⟨.rest (.cons hn hrest), rfl⟩
      | cons flag running =>
          obtain ⟨hafter, hflags⟩ := ih running
          cases flag with
          | false =>
              rw [updateRunning_resting, updateRunning_resting, hflags]
              exact ⟨.skip hn hafter, rfl⟩
          | true =>
              obtain ⟨hvisit, hgoes⟩ := visit_like_of_lt hupdate hA (hnodes n (by simp)) hn
              rw [updateRunning_running, updateRunning_running, hflags, hgoes]
              exact ⟨.cons hvisit hafter, rfl⟩

theorem walk_like_of_lt {nodes nodes' : List Node} (hnodes : ∀ n ∈ nodes, n.size < bound)
    (hlike : List.Forall₂ (Like A) nodes nodes') (cursor : Cursor) :
    AllLikeAfter A ((walk m w cursor nodes).1, (walk m w cursor nodes).2.2)
        ((walk m w' cursor nodes').1, (walk m w' cursor nodes').2.2) ∧
      (walk m w cursor nodes).2.1 = (walk m w' cursor nodes').2.1 := by
  induction cursor, nodes using Cursor.walkInduction generalizing nodes' with
  | nil cursor =>
      obtain rfl := List.forall₂_nil_left_iff.mp hlike
      cases cursor <;> exact ⟨.rest (by simp [walk]), rfl⟩
  | finished next nodes =>
      have hwalk : ∀ w nodes, walk m w (.finished next) nodes = (nodes, .finished next, []) := by
        simp [walk]
      rw [hwalk, hwalk]
      exact ⟨.rest hlike, rfl⟩
  | shift cursor n rest ih =>
      obtain ⟨k, rest', hn, hrest, rfl⟩ := List.forall₂_cons_left_iff.mp hlike
      obtain ⟨hafter, hcursor⟩ := ih (fun n hn => hnodes n (by simp [hn])) hrest
      rw [walk_shift, walk_shift, hcursor]
      exact ⟨.skip hn hafter, rfl⟩
  | running n rest ih =>
      obtain ⟨k, rest', hn, hrest, rfl⟩ := List.forall₂_cons_left_iff.mp hlike
      have hstopped := hn.hasStopped hA
      rw [walk_running, walk_running, ← hstopped]
      cases hstop : n.hasStopped w with
      | true =>
          obtain ⟨hafter, hcursor⟩ := ih (fun n hn => hnodes n (by simp [hn])) hrest
          rw [hcursor]
          exact ⟨.cons (hn.finish hA) hafter, rfl⟩
      | false =>
          obtain ⟨hnode, hheard⟩ := hupdate n k (hnodes n (by simp)) hn
          exact ⟨⟨.cons hnode hrest, hheard⟩, rfl⟩
  | ready n rest ih =>
      obtain ⟨k, rest', hn, hrest, rfl⟩ := List.forall₂_cons_left_iff.mp hlike
      obtain ⟨hstarted, hheard⟩ := hn.start hA
      have hsizes : ∀ k ∈ (n.start w).1 :: rest, k.size < bound := by
        intro k hk
        rcases List.mem_cons.mp hk with rfl | hk
        · rw [start_size]
          exact hnodes n (by simp)
        · exact hnodes k (by simp [hk])
      obtain ⟨⟨hafter, hmore⟩, hcursor⟩ := ih (n.start w).1 hsizes (.cons hstarted hrest)
      rw [walk_ready, walk_ready, hcursor]
      refine ⟨⟨hafter, ?_⟩, rfl⟩
      rw [Accord.hear_append, Accord.hear_append, hheard, hmore]

end Update

theorem Like.update (hA : A.Steady m w w') (h : Like A n k) :
    LikeAfter A (n.update m w) (k.update m w') := by
  induction hsize : n.size using Nat.strongRecOn generalizing n k with
  | ind size ih =>
  have hupdate : ∀ c d : Node, c.size < n.size → Like A c d →
      LikeAfter A (c.update m w) (d.update m w') :=
    fun c d hc hlike => ih c.size (hsize ▸ hc) hlike rfl
  have hchildren : ∀ c ∈ n.children, c.size < n.size := fun c hc => size_lt_of_mem_children hc
  have hheader := h.header
  cases hlive : n.header.live with
  | false =>
      rw [update_of_not_live m w hlive, update_of_not_live m w' (by rwa [← hheader])]
      exact ⟨h, rfl⟩
  | true =>
    have hreaches : A.Reaches n.header := Or.inr (Or.inl hlive)
    have hrecords : A.Records n.header := Or.inr hlive
    cases h with
    | @leaf h a b own =>
        have hlive : h.live = true := hlive
        obtain ⟨hleaf, hheard⟩ := hA.update hlive own
        rw [update_leaf, update_leaf, if_pos hlive, if_pos hlive]
        exact ⟨.leaf hleaf, hheard⟩
    | @sequence h nodes nodes' cursor cursor' record below =>
        obtain rfl := record hrecords
        obtain ⟨⟨hnodes, hheard⟩, hcursor⟩ :=
          walk_like_of_lt hupdate hA hchildren (below hreaches) cursor
        rw [update_sequence m w h hlive, update_sequence m w' h hlive]
        exact ⟨.sequence (fun _ => hcursor) fun _ => hnodes, hheard⟩
    | @parallel h nodes nodes' running running' record below =>
        obtain rfl := record hrecords
        obtain ⟨⟨hnodes, hheard⟩, hflags⟩ :=
          updateRunning_like_of_lt hupdate hA hchildren (below hreaches) running
        rw [update_parallel m w h hlive, update_parallel m w' h hlive]
        exact ⟨.parallel (fun _ => hflags) fun _ => hnodes, hheard⟩
    | @repeating h child child' running running' record below =>
        obtain rfl := record hrecords
        have hbelow := below hreaches
        rcases child with _ | child <;> rcases child' with _ | child'
        · rw [update_vacant, update_vacant]
          exact ⟨.repeating (fun _ => rfl) fun _ => hbelow, rfl⟩
        · cases hbelow
        · cases hbelow
        have hchild : Like A child child' := (List.forall₂_cons.mp hbelow).1
        have hsmall := hchildren child (by simp [children])
        cases running with
        | true =>
            obtain ⟨⟨hnode, hheard⟩, hgoes⟩ := visit_like_of_lt hupdate hA hsmall hchild
            rw [update_repeating_running m w h hlive, update_repeating_running m w' h hlive]
            exact ⟨.repeating (fun _ => hgoes) fun _ => .cons hnode .nil, hheard⟩
        | false =>
            obtain ⟨hstarted, hopening⟩ := hchild.start hA
            obtain ⟨⟨hnode, hheard⟩, hgoes⟩ :=
              visit_like_of_lt hupdate hA (by rwa [start_size]) hstarted
            rw [update_repeating_resting m w h hlive, update_repeating_resting m w' h hlive]
            refine ⟨.repeating (fun _ => hgoes) fun _ => .cons hnode .nil, ?_⟩
            rw [Accord.hear_append, Accord.hear_append, hopening, hheard]

theorem walk_like (hA : A.Steady m w w') {nodes nodes' : List Node}
    (hlike : List.Forall₂ (Like A) nodes nodes') (cursor : Cursor) :
    AllLikeAfter A ((walk m w cursor nodes).1, (walk m w cursor nodes).2.2)
        ((walk m w' cursor nodes').1, (walk m w' cursor nodes').2.2) ∧
      (walk m w cursor nodes).2.1 = (walk m w' cursor nodes').2.1 := by
  have hnodes : ∀ n ∈ nodes, n.size < (nodes.map size).sum + 1 := fun n hn => size_lt_sum_of_mem hn
  exact walk_like_of_lt (fun n k _ h => h.update hA) hA hnodes hlike cursor

end Node

end Choreo
