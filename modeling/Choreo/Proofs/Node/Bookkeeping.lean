import Choreo.Proofs.Node.Retouch
import Choreo.Proofs.Node.Unfolding
import Mathlib.Logic.Relation

/-!
# Bookkeeping

Which nodes run is on record twice, in the headers of the nodes themselves and in the cursor or the
flags of their parent, and six operations write to both. Whatever is done to a tree in the order of its
lifecycle, the two agree, and so no node is started that is open or updated that is closed. Nodes may be
switched on and off at any time: a switch is looked at when a node is started and when its parent next
asks whether it has stopped, and no record depends on it.
-/

namespace Choreo

/-- Everything but the switches. -/
def Retouch.unswitched : Retouch := { header := fun h => { h with enabled := true } }

namespace Cursor

variable {cursor : Cursor} {nodes : List Node}

theorem active_shift (cursor : Cursor) : cursor.shift.active = cursor.active.map (· + 1) := by
  cases cursor <;> rfl

theorem Marks.active_iff (hmarks : cursor.Marks nodes) (i : Nat) :
    nodes[i]?.any (fun c : Node => c.header.active) = true ↔ cursor.active = some i := by
  have hnone : ∀ nodes : List Node, (∀ c ∈ nodes, c.header.active = false) →
      ∀ i : Nat, nodes[i]?.any (fun c : Node => c.header.active) = false := by
    intro nodes hrest i
    cases hc : nodes[i]? with
    | none => rfl
    | some c => exact hrest c (List.mem_of_getElem? hc)
  induction nodes generalizing cursor i with
  | nil => cases cursor <;> simp_all [Marks, active]
  | cons n rest ih =>
      cases cursor using headCases with
      | ready =>
          rw [hnone _ ((marks_ready _).mp hmarks)]
          simp [active]
      | running =>
          obtain ⟨hn, hrest⟩ := hmarks
          cases i with
          | zero => simp [active, hn]
          | succ i => simp [active, hnone rest hrest i]
      | finished next =>
          rw [hnone _ hmarks.2]
          simp [active]
      | shift cursor =>
          obtain ⟨hn, hmarks⟩ := (marks_shift cursor n rest).mp hmarks
          rw [active_shift]
          cases i with
          | zero => simp [hn]
          | succ i => simpa using ih hmarks i

theorem Marks.next_eq (hmarks : cursor.Marks nodes) (hfinished : cursor.isFinished = true) :
    (∀ c ∈ nodes, c.header.active = false) ∧ cursor.next = nodes.length := by
  cases cursor with
  | finished next =>
      have hend : next = nodes.length ∧ ∀ c ∈ nodes, c.header.active = false := by
        simpa [Marks] using hmarks
      exact ⟨hend.2, hend.1⟩
  | _ => cases hfinished

theorem next_of_active {i : Nat} (hi : cursor.active = some i) : cursor.next = i + 1 := by
  cases cursor with
  | running index =>
      obtain rfl : index = i := by simpa [active] using hi
      rfl
  | _ => cases hi

end Cursor

namespace Node

/-- What can become of a tree that is checked, and then started, updated and ended in the order of its
lifecycle: an open tree has been started and not ended since. Between two calls any nodes may be
switched on and off. -/
inductive Handled : Bool → Node → Prop
  | init (w : Surroundings) (n : Node) : Handled false (n.init w 0).1
  | start {n : Node} (w : Surroundings) (h : Handled false n) : Handled true (n.start w).1
  | update {n : Node} (m : Moment) (w : Surroundings) (h : Handled true n) :
      Handled true (n.update m w).1
  | finish {n : Node} {isOpen : Bool} (h : Handled isOpen n) : Handled false n.finish.1
  | switch {n next : Node} {isOpen : Bool} (h : Handled isOpen n)
      (hsame : next.retouch .unswitched = n.retouch .unswitched) : Handled isOpen next

/-- The record that a node keeps of its children tells which of them are active. -/
def Recorded : Node → Prop
  | leaf .. => True
  | sequence _ children cursor =>
    (∀ (i : Nat) (hi : i < children.length),
      children[i].header.active = true ↔ cursor.active = some i) ∧
    (∀ i, cursor.active = some i → i < children.length ∧ cursor.next = i + 1) ∧
    (cursor.isFinished = true →
      (∀ c ∈ children, c.header.active = false) ∧ cursor.next = children.length)
  | parallel _ children running => running = children.map (·.header.active)
  | repeating _ child running => ∀ c ∈ child, running = true ↔ c.header.active = true

structure Consistent (n : Node) : Prop where
  live : n.header.live = true → n.header.active = true ∧ n.header.fault = none
  idle : n.header.live = false → ∀ c ∈ n.children, ∀ k ∈ c.preorder, k.header.active = false
  record : n.header.live = true → n.Recorded

/-! ### Calls

An end does nothing to a closed node, so it is in order at any time. -/

inductive Operation
  | start
  | update

def Operation.run (m : Moment) (w : Surroundings) : Operation → Node → Node × List Effect
  | start, n => n.start w
  | update, n => n.update m w

def Operation.Permitted : Operation → Node → Prop
  | start, n => n.header.active = false
  | update, n => n.header.active = true

/-- What a sequence calls in a tick, with each child in the state in which it is called. -/
inductive WalkCalls (w : Surroundings) : Cursor → List Node → Operation → Node → Prop
  | shift {cursor : Cursor} {rest : List Node} {op : Operation} {k : Node} (n : Node)
      (h : WalkCalls w cursor rest op k) : WalkCalls w cursor.shift (n :: rest) op k
  | update {n : Node} (rest : List Node) (hgoes : n.hasStopped w = false) :
      WalkCalls w (.running 0) (n :: rest) .update n
  | retire {n : Node} {rest : List Node} {op : Operation} {k : Node}
      (hstop : n.hasStopped w = true) (h : WalkCalls w (.ready 0) rest op k) :
      WalkCalls w (.running 0) (n :: rest) op k
  | start (n : Node) (rest : List Node) : WalkCalls w (.ready 0) (n :: rest) .start n
  | started {n : Node} {rest : List Node} {op : Operation} {k : Node}
      (h : WalkCalls w (.running 0) ((n.start w).1 :: rest) op k) :
      WalkCalls w (.ready 0) (n :: rest) op k

/-- What an operation on a node calls directly. Only a live node calls its children. That `start` and
`update` make these calls and no others is `conducts`. -/
inductive Calls (w : Surroundings) : Operation × Node → Operation × Node → Prop
  | startAll {h : Header} {nodes : List Node} {running : List Bool} {c : Node}
      (hlive : h.opened.live = true) (hc : c ∈ nodes) :
      Calls w (.start, parallel h nodes running) (.start, c)
  | walk {h : Header} {nodes : List Node} {cursor : Cursor} {op : Operation} {k : Node}
      (hlive : h.live = true) (hwalk : WalkCalls w cursor nodes op k) :
      Calls w (.update, sequence h nodes cursor) (op, k)
  | updateRunning {h : Header} {nodes : List Node} {running : List Bool} {c : Node} {i : Nat}
      (hlive : h.live = true) (hc : nodes[i]? = some c) (hrunning : running[i]? = some true)
      (hgoes : c.hasStopped w = false) : Calls w (.update, parallel h nodes running) (.update, c)
  | resume {h : Header} {c : Node} (hlive : h.live = true) (hgoes : c.hasStopped w = false) :
      Calls w (.update, repeating h (some c) true) (.update, c)
  | restart {h : Header} {c : Node} (hlive : h.live = true) :
      Calls w (.update, repeating h (some c) false) (.start, c)
  | restarted {h : Header} {c : Node} (hlive : h.live = true)
      (hgoes : (c.start w).1.hasStopped w = false) :
      Calls w (.update, repeating h (some c) false) (.update, (c.start w).1)

variable {w : Surroundings}

theorem sound_start {n : Node} (hsound : n.Sound) (hrest : n.header.active = false) :
    (n.start w).1.Sound :=
  -- The moment plays no part in a start.
  (hsound.operable.start (m := ⟨0, 0⟩) hrest).sound

theorem permitted_of_walkCalls {cursor : Cursor} {nodes : List Node} {op : Operation} {k : Node}
    (h : WalkCalls w cursor nodes op k) (hsound : ∀ n ∈ nodes, n.Sound)
    (hmarks : cursor.Marks nodes) : k.Sound ∧ op.Permitted k := by
  induction h with
  | shift n _ ih =>
      obtain ⟨_, hmarks⟩ := (Cursor.marks_shift _ _ _).mp hmarks
      exact ih (fun k hk => hsound k (by simp [hk])) hmarks
  | update rest _ => exact ⟨hsound _ (by simp), hmarks.1⟩
  | retire _ _ ih =>
      exact ih (fun k hk => hsound k (by simp [hk])) ((Cursor.marks_ready _).mpr hmarks.2)
  | start n rest =>
      rw [Cursor.marks_ready] at hmarks
      exact ⟨hsound n (by simp), hmarks n (by simp)⟩
  | @started n rest _ _ _ ih =>
      rw [Cursor.marks_ready] at hmarks
      have hn : n.header.active = false := hmarks n (by simp)
      refine ih ?_ ⟨by simp [Header.opened], fun c hc => hmarks c (by simp [hc])⟩
      intro k hk
      rcases List.mem_cons.mp hk with rfl | hk
      · exact sound_start (hsound n (by simp)) hn
      · exact hsound k (by simp [hk])

theorem permitted_of_calls {op op' : Operation} {n k : Node} (h : Calls w (op, n) (op', k))
    (hsound : n.Sound) (hop : op.Permitted n) : k.Sound ∧ op'.Permitted k := by
  have htidy : n.header.live = true → n.Tidy := hsound.tidy
  cases h with
  | startAll _ hc => exact ⟨hsound.children _ hc, hsound.children_rest hop _ hc⟩
  | walk hlive hwalk => exact permitted_of_walkCalls hwalk hsound.children (htidy hlive)
  | @updateRunning header nodes running _ i hlive hc hrunning _ =>
      obtain rfl : running = nodes.map (·.header.active) := htidy hlive
      have hactive : k.header.active = true := by simpa [hc] using hrunning
      exact ⟨hsound.children k (List.mem_of_getElem? hc), hactive⟩
  | resume hlive _ => exact ⟨hsound.children _ (by simp [children]), htidy hlive _ rfl⟩
  | restart hlive => exact ⟨hsound.children _ (by simp [children]), htidy hlive _ rfl⟩
  | @restarted header c hlive _ =>
      have hrest : c.header.active = false := htidy hlive _ rfl
      exact ⟨sound_start (hsound.children _ (by simp [children])) hrest, by
        simp [Operation.Permitted, Header.opened]⟩

theorem sound_and_permitted_of_reached {op op' : Operation} {n k : Node}
    (h : Relation.ReflTransGen (Calls w) (op, n) (op', k)) (hsound : n.Sound)
    (hop : op.Permitted n) : k.Sound ∧ op'.Permitted k := by
  -- What is kept along the chain is said of pairs, since the operation changes with the node.
  have hchain : ∀ call : Operation × Node, Relation.ReflTransGen (Calls w) (op, n) call →
      call.2.Sound ∧ call.1.Permitted call.2 := by
    intro call hcall
    induction hcall with
    | refl => exact ⟨hsound, hop⟩
    | tail _ hlast ih => exact permitted_of_calls hlast ih.1 ih.2
  exact hchain (op', k) h

/-! ### What a sound tree has on record -/

theorem recorded_of_tidy {n : Node} (htidy : n.Tidy) : n.Recorded := by
  cases n with
  | leaf h a => trivial
  | sequence h nodes cursor =>
      have hmarks : cursor.Marks nodes := htidy
      refine ⟨?_, ?_, hmarks.next_eq⟩
      · intro i hi
        rw [← hmarks.active_iff i, List.getElem?_eq_getElem hi]
        rfl
      · intro i hi
        have hany := (hmarks.active_iff i).mpr hi
        refine ⟨?_, Cursor.next_of_active hi⟩
        by_contra hlength
        rw [List.getElem?_eq_none (by omega)] at hany
        cases hany
  | parallel h nodes running => exact htidy
  | repeating h child running =>
      intro c hc
      have hactive : c.header.active = running := htidy c hc
      rw [hactive]

theorem Sound.consistent {n : Node} (hsound : n.Sound) : n.Consistent where
  live hlive := ⟨hsound.upright.active_of_live hlive, hsound.upright.fault_of_live hlive⟩
  idle hlive c hc _ hk :=
    not_active_of_mem_preorder (hsound.children c hc) (hsound.upright.children_rest hlive c hc) hk
  record hlive := recorded_of_tidy (hsound.tidy hlive)

/-! ### Switches make no difference to the records -/

theorem active_unswitched (n : Node) :
    (n.retouch .unswitched).header.active = n.header.active := by
  rw [retouch_header]
  rfl

theorem tidy_unswitched (n : Node) : (n.retouch .unswitched).Tidy ↔ n.Tidy := by
  cases n with
  | leaf h a => rfl
  | sequence h nodes cursor =>
      rw [retouch_sequence]
      exact cursor.marks_map active_unswitched nodes
  | parallel h nodes running =>
      have hflags : (nodes.map (retouch .unswitched)).map (·.header.active) =
          nodes.map (·.header.active) := by
        rw [List.map_map]
        exact List.map_congr_left fun n _ => n.active_unswitched
      rw [retouch_parallel]
      change running = _ ↔ running = _
      rw [hflags]
  | repeating h child running =>
      rw [retouch_repeating]
      cases child with
      | none => simp [Tidy]
      | some child =>
          simp only [Tidy, Option.map_some, Option.mem_some_iff, forall_eq', active_unswitched]
          rfl

theorem upright_unswitched (n : Node) : (n.retouch .unswitched).Upright ↔ n.Upright := by
  have hheader : (n.retouch .unswitched).header = { n.header with enabled := true } :=
    n.retouch_header _
  have horder : (n.retouch .unswitched).InOrder ↔ n.InOrder := by
    rw [Node.InOrder, Node.InOrder, tidy_unswitched, retouch_children, hheader]
    simp only [List.forall_mem_map, active_unswitched]
  constructor
  · rintro ⟨hactive, hfault, hinOrder⟩
    rw [hheader] at hactive hfault
    exact ⟨hactive, hfault, horder.mp hinOrder⟩
  · rintro ⟨hactive, hfault, hinOrder⟩
    refine ⟨?_, ?_, horder.mpr hinOrder⟩
    · rw [hheader]
      exact hactive
    · rw [hheader]
      exact hfault

theorem sound_unswitched (n : Node) : (n.retouch .unswitched).Sound ↔ n.Sound := by
  rw [Sound, preorder_retouch, List.forall_mem_map]
  simp only [upright_unswitched]
  rfl

theorem Handled.sound {n : Node} {isOpen : Bool} (h : Handled isOpen n) :
    n.Sound ∧ n.header.active = isOpen := by
  induction h with
  | init w n => exact ⟨n.sound_init w 0, by simp⟩
  | @start n w _ ih => exact ⟨sound_start ih.1 ih.2, by simp [Header.opened]⟩
  | @update n m w _ ih =>
      refine ⟨(ih.1.operable.update ih.2).sound, ?_⟩
      rw [update_header, ih.2]
  | @finish n isOpen _ ih =>
      refine ⟨?_, n.finish_not_active⟩
      cases hactive : n.header.active with
      | false => rw [finish_of_not_active hactive]; exact ih.1
      -- The moment and the surroundings play no part in an end.
      | true => exact (ih.1.operable.finish (m := ⟨0, 0⟩) (w := {}) hactive).sound
  | @switch n next isOpen _ hsame ih =>
      have hsound : next.Sound ↔ n.Sound :=
        calc next.Sound
          _ ↔ (next.retouch .unswitched).Sound := next.sound_unswitched.symm
          _ ↔ (n.retouch .unswitched).Sound := by rw [hsame]
          _ ↔ n.Sound := n.sound_unswitched
      have hactive : next.header.active = n.header.active :=
        calc next.header.active
          _ = (next.retouch .unswitched).header.active := next.active_unswitched.symm
          _ = (n.retouch .unswitched).header.active := by rw [hsame]
          _ = n.header.active := n.active_unswitched
      exact ⟨hsound.mpr ih.1, hactive.trans ih.2⟩

end Node

open Node in
/-- **The records of a tree are right.** However a tree is handled, the records of every node agree with
the state of its children, and a start of the closed tree or an update of the open one leads only to
starts of closed nodes and updates of open ones: what it does is a course, and all that it calls is in
order. -/
theorem records_are_right {isOpen : Bool} {n : Node} (h : Handled isOpen n) :
    n.header.active = isOpen ∧ (∀ k ∈ n.preorder, k.Consistent) ∧
      ∀ (m : Moment) (w : Surroundings) (op : Operation), op.Permitted n →
        Course m w [n] (op.run m w n).2 [(op.run m w n).1] ∧
          ∀ (op' : Operation) (k : Node),
            Relation.ReflTransGen (Calls w) (op, n) (op', k) → op'.Permitted k := by
  obtain ⟨hsound, hactive⟩ := h.sound
  refine ⟨hactive, fun k hk => (hsound.of_mem_preorder hk).consistent, ?_⟩
  intro m w op hop
  refine ⟨?_, fun op' k hreached => (sound_and_permitted_of_reached hreached hsound hop).2⟩
  cases op with
  | start => exact (hsound.operable.start hop).course
  | update => exact (hsound.operable.update hop).course

open Node in
/-- Two actions at once are switched off together with their parallel, which is live all the same and
ends them in its next update. -/
theorem records_are_right_blackout :
    let pair : Node := .parallel {} [.leaf {} (.attack {}), .leaf {} (.walk ⟨0⟩)] []
    let started := ((pair.init {} 0).1.start {}).1
    let dark := started.retouch { header := fun h => { h with enabled := false } }
    let after := (dark.update ⟨1, 1⟩ {}).1
    Handled true after ∧ after.header.live = true ∧
      after.children.map (·.header.active) = [false, false] ∧
      ∀ k ∈ after.preorder, k.Consistent := by
  intro pair started dark after
  have hstarted : Handled true started := .start {} (.init {} pair)
  have hdark : Handled true dark := .switch hstarted rfl
  have hafter : Handled true after := .update ⟨1, 1⟩ {} hdark
  exact ⟨hafter, rfl, rfl, (records_are_right hafter).2.1⟩

end Choreo
