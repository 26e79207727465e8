import Choreo.Proofs.Node.Bookkeeping
import Choreo.Proofs.Node.Siblings
import Choreo.Proofs.Node.Verdicts
import Choreo.Proofs.Reactivation

/-!
# Renewal

A check is made once, and its findings outlive the run: whatever is done to a tree afterwards, every
node in it keeps its number and its fault, and a leaf keeps what its check has derived. So a closed
tree that has run is like its authored form after a new check in surroundings with the same
capabilities, and need not be checked again before it is started again.
-/

namespace Choreo

open Accord

/-! ### Leaves -/

namespace Leaf

/-- One leaf at two times of its run. A start makes the same of both. -/
structure SameAction (a b : Leaf) : Prop where
  pristine : a.pristine = b.pristine
  start : ∀ w, a.start w = b.start w

theorem sameAction_start (w : Surroundings) (a : Leaf) : SameAction (a.start w).1 a := by
  cases a <;> exact ⟨rfl, fun _ => rfl⟩

theorem sameAction_update (m : Moment) (w : Surroundings) (a : Leaf) :
    SameAction (a.update m w).1 a := by
  have hboth : (a.update m w).1.pristine = a.pristine ∧
      ∀ v, (a.update m w).1.start v = a.start v := by
    cases a with
    | walk a => exact ⟨rfl, fun _ => rfl⟩
    | _ =>
        simp only [update, Wait.update, MoveBy.update, FollowPath.update, FollowBezier.update,
          Jump.update, SingleShot.update, Barrage.update, Attack.update, Lob.update]
        split_ifs <;> exact ⟨rfl, fun _ => rfl⟩
  exact ⟨hboth.1, hboth.2⟩

/-- The fault is what a check finds, and a start is like one after the check. -/
def Found (w : Surroundings) (fault : Option Fault) (a : Leaf) : Prop :=
  match a.pristine.init w with
  | .ok b => fault = none ∧ ∀ v, a.start v = b.start v
  | .error error => fault = some error

variable {w : Surroundings} {a b : Leaf}

theorem Found.of_sameAction {fault : Option Fault} (hb : b.Found w fault) (h : SameAction a b) :
    a.Found w fault := by
  rw [Found] at hb ⊢
  rw [h.pristine]
  cases hinit : b.pristine.init w with
  | error error => rwa [hinit] at hb
  | ok c =>
      rw [hinit] at hb
      exact ⟨hb.1, fun v => (h.start v).trans (hb.2 v)⟩

theorem pristine_init (w : Surroundings) (a : Leaf) :
    pristine <$> a.init w = (fun _ => a.pristine) <$> a.init w := by
  cases a with
  | moveBy a => cases hvector : a.vector.isFinite <;> simp [pristine, init, MoveBy.init, hvector]
  | _ => simp [pristine, init, Wait.init, FollowPath.init, FollowBezier.init, Jump.init,
      SingleShot.init, Barrage.init, Attack.init, Lob.init, Walk.init]

/-- What a check has passed is found so again. -/
theorem found_of_ok (h : a.init w = .ok b) : b.Found w none := by
  have hpristine : b.pristine = a.pristine := by
    have hinit := pristine_init w a
    rw [h] at hinit
    exact Except.ok.inj hinit
  have hstart := a.start_init_pristine w
  rw [h] at hstart
  rw [Found, hpristine]
  cases hinit : a.pristine.init w with
  | error error => rw [hinit] at hstart; cases hstart
  | ok c =>
      rw [hinit] at hstart
      exact ⟨rfl, fun v => (congrFun (Except.ok.inj hstart) v).symm⟩

theorem found_of_error {error : Fault} (h : a.init w = .error error) :
    a.Found w (some error) := by
  have hstart := a.start_init_pristine w
  rw [h] at hstart
  rw [Found]
  cases hinit : a.pristine.init w with
  | error fault =>
      rw [hinit] at hstart
      exact congrArg some (Except.error.inj hstart).symm
  | ok c => rw [hinit] at hstart; cases hstart

end Leaf

/-! ### Trees -/

namespace Node

/-- One node at two times of its run, apart from what is below it. -/
inductive SameNode : Node → Node → Prop
  | leaf {h h' : Header} {a b : Leaf} (header : h.closed = h'.closed) (own : a.SameAction b) :
      SameNode (leaf h a) (leaf h' b)
  | sequence {h h' : Header} {nodes nodes' : List Node} {cursor cursor' : Cursor}
      (header : h.closed = h'.closed) :
      SameNode (sequence h nodes cursor) (sequence h' nodes' cursor')
  | parallel {h h' : Header} {nodes nodes' : List Node} {running running' : List Bool}
      (header : h.closed = h'.closed) :
      SameNode (parallel h nodes running) (parallel h' nodes' running')
  | repeating {h h' : Header} {child child' : Option Node} {running running' : Bool}
      (header : h.closed = h'.closed) (vacant : child.isNone = child'.isNone) :
      SameNode (repeating h child running) (repeating h' child' running')

/-- The node is as a check in `v` has left it, as far as a run leaves it alone. -/
def Verified (v : Surroundings) : Node → Prop
  | leaf h a => a.Found v h.fault
  | sequence h _ _ | parallel h _ _ => h.fault = none
  | repeating h child _ => h.fault = if child.isNone then some .missingChild else none

def AllVerified (v : Surroundings) (n : Node) : Prop := ∀ k ∈ n.preorder, k.Verified v

variable {m : Moment} {v w : Surroundings} {n k : Node}

theorem sameNode_withHeader {h : Header} (hheader : h.closed = n.header.closed) :
    SameNode (n.withHeader h) n := by
  cases n with
  | leaf header a => exact .leaf hheader ⟨rfl, fun _ => rfl⟩
  | sequence header nodes cursor => exact .sequence hheader
  | parallel header nodes running => exact .parallel hheader
  | repeating header child running => exact .repeating hheader rfl

theorem sameNode_start (w : Surroundings) (n : Node) : SameNode (n.start w).1 n := by
  cases hlive : n.header.opened.live with
  | false =>
      rw [start_of_not_live w hlive]
      exact sameNode_withHeader rfl
  | true =>
    cases n with
    | leaf header a =>
        rw [start_leaf w header hlive]
        exact .leaf rfl (a.sameAction_start w)
    | sequence header nodes cursor => exact .sequence rfl
    | parallel header nodes running =>
        rw [start_parallel w header hlive]
        exact .parallel rfl
    | repeating header child running => exact .repeating rfl rfl

theorem sameNode_update (m : Moment) (w : Surroundings) (n : Node) :
    SameNode (n.update m w).1 n := by
  cases hlive : n.header.live with
  | false =>
      have hself : n.withHeader n.header = n := by cases n <;> rfl
      have hsame : SameNode (n.withHeader n.header) n := sameNode_withHeader rfl
      rw [update_of_not_live m w hlive]
      rwa [hself] at hsame
  | true =>
    cases n with
    | leaf header a =>
        rw [update_leaf, if_pos (show header.live = true from hlive)]
        exact .leaf rfl (a.sameAction_update m w)
    | sequence header nodes cursor =>
        rw [update_sequence m w header hlive]
        exact .sequence rfl
    | parallel header nodes running =>
        rw [update_parallel m w header hlive]
        exact .parallel rfl
    | repeating header child running =>
        rcases child with _ | child
        · rw [update_vacant]
          exact .repeating rfl rfl
        cases running with
        | true =>
            rw [update_repeating_running m w header hlive]
            exact .repeating rfl rfl
        | false =>
            rw [update_repeating_resting m w header hlive]
            exact .repeating rfl rfl

theorem sameNode_finish (hactive : n.header.active = true) : SameNode n.finish.1 n := by
  cases hlive : n.header.live with
  | false =>
      rw [finish_of_not_live hactive hlive]
      exact sameNode_withHeader rfl
  | true =>
    cases n with
    | leaf header a =>
        rw [finish_leaf header hactive hlive]
        exact .leaf rfl ⟨rfl, fun _ => rfl⟩
    | sequence header nodes cursor =>
        rw [finish_sequence header hactive hlive]
        exact .sequence rfl
    | parallel header nodes running =>
        rw [finish_parallel header hactive hlive]
        exact .parallel rfl
    | repeating header child running =>
        rcases child with _ | child
        · rw [finish_vacant header hactive]
          exact .repeating rfl rfl
        cases running with
        | true =>
            rw [finish_repeating_running header hactive hlive]
            exact .repeating rfl rfl
        | false =>
            rw [finish_repeating_resting header hactive]
            exact .repeating rfl rfl

theorem Verified.of_sameNode (hk : k.Verified v) (h : SameNode n k) : n.Verified v := by
  have hfault : ∀ {h h' : Header}, h.closed = h'.closed → h.fault = h'.fault :=
    fun heq => congrArg (fun h => h.fault) heq
  cases h with
  | leaf header own =>
      rw [Verified, hfault header]
      exact Leaf.Found.of_sameAction hk own
  | sequence header => exact (hfault header).trans hk
  | parallel header => exact (hfault header).trans hk
  | repeating header vacant =>
      rw [Verified, hfault header, vacant]
      exact hk

/-- What was authored for a node is seen from the node and what was authored for its children. -/
theorem SameNode.pristine_eq (h : SameNode n k)
    (hbelow : n.children.map (retouch .pristine) = k.children.map (retouch .pristine)) :
    n.retouch .pristine = k.retouch .pristine := by
  have hauthored : ∀ {h h' : Header}, h.closed = h'.closed →
      Retouch.pristine.header h = Retouch.pristine.header h' := by
    intro h h' heq
    have hclosed := congrArg Retouch.pristine.header heq
    exact hclosed
  cases h with
  | leaf header own => exact congrArg₂ Node.leaf (hauthored header) own.pristine
  | sequence header =>
      rw [retouch_sequence, retouch_sequence]
      exact congrArg₂ (Node.sequence · · _) (hauthored header) hbelow
  | parallel header =>
      rw [retouch_parallel, retouch_parallel]
      exact congrArg₂ (Node.parallel · · _) (hauthored header) hbelow
  | @repeating h h' child child' running running' header vacant =>
      have hchild : child.map (retouch .pristine) = child'.map (retouch .pristine) := by
        cases child <;> cases child' <;> simp_all [children]
      rw [retouch_repeating, retouch_repeating]
      exact congrArg₂ (Node.repeating · · _) (hauthored header) hchild

theorem allVerified_iff :
    n.AllVerified v ↔ n.Verified v ∧ ∀ c ∈ n.children, c.AllVerified v := by
  rw [AllVerified, preorder_eq]
  simp only [List.mem_cons, List.mem_flatMap, forall_eq_or_imp, AllVerified]
  exact and_congr_right fun _ => ⟨fun h c hc k hk => h k ⟨c, hc, hk⟩,
    fun h k ⟨c, hc, hk⟩ => h c hc k hk⟩

theorem Course.map_pristine_eq {nodes result : List Node} {effects : List Effect}
    (course : Course m w nodes effects result) :
    result.map (retouch .pristine) = nodes.map (retouch .pristine) :=
  course.map_eq_of_turns (fun n => (sameNode_start w n).pristine_eq)
    (fun n => (sameNode_update m w n).pristine_eq) fun _ h => (sameNode_finish h).pristine_eq

theorem Course.allVerified {nodes result : List Node} {effects : List Effect}
    (course : Course m w nodes effects result) (hnodes : ∀ n ∈ nodes, n.AllVerified v) :
    ∀ n ∈ result, n.AllVerified v := by
  -- A turn leaves the node itself verified and, by its own course, what is below it.
  have hturn : ∀ (before after : List Node) (n next : Node),
      (∀ k ∈ before ++ n :: after, k.AllVerified v) → SameNode next n →
      ((∀ c ∈ n.children, c.AllVerified v) → ∀ c ∈ next.children, c.AllVerified v) →
      ∀ k ∈ before ++ next :: after, k.AllVerified v := by
    intro before after n next hall hown hbelow k hk
    rcases List.mem_append.mp hk with hk | hk
    · exact hall k (by simp [hk])
    rcases List.mem_cons.mp hk with rfl | hk
    · obtain ⟨hn, hchildren⟩ := allVerified_iff.mp (hall n (by simp))
      exact allVerified_iff.mpr ⟨hn.of_sameNode hown, hbelow hchildren⟩
    · exact hall k (by simp [hk])
  induction course with
  | done nodes => exact hnodes
  | start before after _ _ _ ihBelow ihNext =>
      exact ihNext (hturn before after _ _ hnodes (sameNode_start w _) ihBelow)
  | update before after _ _ _ ihBelow ihNext =>
      exact ihNext (hturn before after _ _ hnodes (sameNode_update m w _) ihBelow)
  | finish before after hactive _ _ ihBelow ihNext =>
      exact ihNext (hturn before after _ _ hnodes (sameNode_finish hactive) ihBelow)

theorem verified_init (v : Surroundings) (n : Node) (first : Nat) :
    (n.init v first).1.Verified v := by
  cases n with
  | leaf header a =>
      rw [init]
      cases hinit : a.init v with
      | error error => exact Leaf.found_of_error hinit
      | ok b => exact Leaf.found_of_ok hinit
  | sequence header nodes cursor => rfl
  | parallel header nodes running => rfl
  | repeating header child running => cases child <;> rfl

theorem allVerified_init (v : Surroundings) (n : Node) (first : Nat) :
    (n.init v first).1.AllVerified v := by
  induction n generalizing first with
  | node n ih =>
      refine allVerified_iff.mpr ⟨n.verified_init v first, fun c hc => ?_⟩
      rw [init_children] at hc
      obtain ⟨d, hd, i, rfl⟩ := mem_initAll v hc
      exact ih d hd i

theorem verified_unswitched (n : Node) : (n.retouch .unswitched).Verified v ↔ n.Verified v := by
  cases n with
  | repeating header child running => cases child <;> rfl
  | _ => rfl

theorem allVerified_unswitched (n : Node) :
    (n.retouch .unswitched).AllVerified v ↔ n.AllVerified v := by
  rw [AllVerified, preorder_retouch, List.forall_mem_map]
  simp only [verified_unswitched]
  rfl

/-! ### Numbers -/

/-- The numbers of a tree are one block that begins with the number of its root. -/
def Numbered (n : Node) : Prop := n.ids = List.range' n.id n.size

theorem Numbered.below (h : n.Numbered) :
    n.children.flatMap ids = List.range' (n.id + 1) (n.children.map size).sum := by
  rw [Numbered, ids_eq, size_eq, Nat.add_comm, List.range'_succ] at h
  exact (List.cons.inj h).2

/-- A block that the numbers of a list fill is the block of the first tree and one of the others. -/
theorem numbered_cons {rest : List Node} {first : Nat}
    (hids : (n :: rest).flatMap ids = List.range' first ((n :: rest).map size).sum) :
    (n.id = first ∧ n.Numbered) ∧
      rest.flatMap ids = List.range' (first + n.size) (rest.map size).sum := by
  rw [List.flatMap_cons, List.map_cons, List.sum_cons, ← List.range'_append_1] at hids
  have hlength : n.ids.length = (List.range' first n.size).length := by
    rw [length_ids, List.length_range']
  obtain ⟨hn, hrest⟩ := List.append_inj hids hlength
  have hid : n.id = first := by
    have hhead := hn
    rw [ids_eq, size_eq, Nat.add_comm, List.range'_succ] at hhead
    exact (List.cons.inj hhead).1
  refine ⟨⟨hid, ?_⟩, hrest⟩
  rw [Numbered, hid, hn]

theorem numbered_of_mem {nodes : List Node} {first : Nat}
    (hids : nodes.flatMap ids = List.range' first (nodes.map size).sum) {c : Node}
    (hc : c ∈ nodes) : c.Numbered := by
  induction nodes generalizing first with
  | nil => cases hc
  | cons n rest ih =>
      obtain ⟨⟨_, hn⟩, hrest⟩ := numbered_cons hids
      rcases List.mem_cons.mp hc with rfl | hc
      · exact hn
      · exact ih hrest hc

/-! ### A closed tree is as good as new -/

/-- What a check in `v` has established of a tree and a run has not undone. -/
structure Renewable (v : Surroundings) (n : Node) : Prop where
  sound : n.Sound
  verified : n.AllVerified v
  numbered : n.Numbered

theorem Renewable.children (h : n.Renewable v) {c : Node} (hc : c ∈ n.children) :
    c.Renewable v where
  sound := h.sound.children c hc
  verified := (allVerified_iff.mp h.verified).2 c hc
  numbered := numbered_of_mem h.numbered.below hc

theorem Renewable.of_mem_preorder (h : n.Renewable v) (hk : k ∈ n.preorder) : k.Renewable v := by
  induction n with
  | node n ih =>
      rw [preorder_eq] at hk
      rcases List.mem_cons.mp hk with rfl | hk
      · exact h
      · obtain ⟨c, hc, hk⟩ := List.mem_flatMap.mp hk
        exact ih c hc (h.children hc) hk

theorem Renewable.of_proceeds {result : Node × List Effect} (h : n.Renewable v)
    (hproceeds : Proceeds m w n result) : result.1.Renewable v where
  sound := hproceeds.sound
  verified := hproceeds.course.allVerified (by simpa using h.verified) _ (by simp)
  numbered := by
    have hids := hproceeds.isLocal.ids
    have hid : result.1.id = n.id := by
      rw [ids_eq, ids_eq n] at hids
      exact (List.cons.inj hids).1
    rw [Numbered, hids, hid, hproceeds.size_eq]
    exact h.numbered

theorem renewable_init (v : Surroundings) (n : Node) (first : Nat) :
    (n.init v first).1.Renewable v where
  sound := n.sound_init v first
  verified := n.allVerified_init v first
  numbered := by
    have hroot : (n.init v first).1 ∈ (n.init v first).1.preorder := by
      rw [preorder_eq]
      exact List.mem_cons_self
    exact ids_of_mem_init v hroot

theorem renewable_unswitched : (n.retouch .unswitched).Renewable v ↔ n.Renewable v := by
  have hnumbered : (n.retouch .unswitched).Numbered ↔ n.Numbered := by
    rw [Numbered, ids_retouch fun _ => rfl, size_retouch, id, retouch_header]
    rfl
  constructor
  · rintro ⟨hsound, hverified, hids⟩
    exact ⟨(sound_unswitched n).mp hsound, (allVerified_unswitched n).mp hverified,
      hnumbered.mp hids⟩
  · rintro ⟨hsound, hverified, hids⟩
    exact ⟨(sound_unswitched n).mpr hsound, (allVerified_unswitched n).mpr hverified,
      hnumbered.mpr hids⟩

theorem initialised_pristine {h : Header} {fault : Option Fault} (hactive : h.active = false)
    (hlive : h.live = false) (hfault : h.fault = fault) :
    (Retouch.pristine.header h).initialised h.id fault = h := by
  cases h
  simp_all [Retouch.pristine, Header.initialised]

theorem like_initAll {nodes : List Node} {first : Nat}
    (hids : nodes.flatMap ids = List.range' first (nodes.map size).sum)
    (hnodes : ∀ c ∈ nodes, Like renewal c ((c.retouch .pristine).init v c.id).1) :
    List.Forall₂ (Like renewal) nodes
      (initAll v first (nodes.map (retouch .pristine))).1 := by
  induction nodes generalizing first with
  | nil => exact .nil
  | cons n rest ih =>
      obtain ⟨⟨hid, _⟩, hrest⟩ := numbered_cons hids
      rw [List.map_cons, initAll_cons, size_retouch, ← hid]
      refine .cons (hnodes n (by simp)) ?_
      rw [hid]
      exact ih hrest fun c hc => hnodes c (by simp [hc])

theorem like_leaf {h : Header} {a : Leaf} (hverified : (leaf h a).Verified v)
    (hactive : h.active = false) (hlive : h.live = false) :
    Like renewal (leaf h a) (((leaf h a).retouch .pristine).init v h.id).1 := by
  have hdead : h.live ≠ true := by simp [hlive]
  rw [Verified, Leaf.Found] at hverified
  rw [retouch, init, show Retouch.pristine.leaf a = a.pristine from rfl]
  cases hinit : a.pristine.init v with
  | error error =>
      rw [hinit] at hverified
      have hfault : h.fault = some error := hverified
      change Like renewal (leaf h a)
        (leaf ((Retouch.pristine.header h).initialised h.id (some error)) a.pristine)
      rw [initialised_pristine hactive hlive hfault]
      have hfaulty : h.fault ≠ none := by simp [hfault]
      exact .leaf ⟨fun hlive => absurd hlive hdead, fun hnone => absurd hnone hfaulty⟩
  | ok b =>
      rw [hinit] at hverified
      obtain ⟨hfault, hstart⟩ := hverified
      change Like renewal (leaf h a) (leaf ((Retouch.pristine.header h).initialised h.id none) b)
      rw [initialised_pristine hactive hlive hfault]
      exact .leaf ⟨fun hlive => absurd hlive hdead, fun _ => hstart⟩

theorem not_records_of_not_live {h : Header} (hlive : h.live = false) : ¬ renewal.Records h := by
  rintro (hstrict | hgoes)
  · exact hstrict
  · simp [hlive] at hgoes

/-- **A closed tree is as good as new.** No start tells it from what a check makes of its authored
form. -/
theorem Renewable.like_init (h : n.Renewable v) (hrest : n.header.active = false) :
    Like renewal n ((n.retouch .pristine).init v n.id).1 := by
  induction n with
  | node n ih =>
    have hlive : n.header.live = false := h.sound.live_of_not_active hrest
    have hchildren : ∀ c ∈ n.children, Like renewal c ((c.retouch .pristine).init v c.id).1 :=
      fun c hc => ih c hc (h.children hc) (h.sound.children_rest hrest c hc)
    have hbelow := like_initAll h.numbered.below hchildren
    have hverified := (allVerified_iff.mp h.verified).1
    have hrecords : ¬ renewal.Records n.header := not_records_of_not_live hlive
    cases n with
    | leaf header a => exact like_leaf hverified hrest hlive
    | sequence header nodes cursor =>
        have hheader : (Retouch.pristine.header header).initialised header.id none = header :=
          initialised_pristine hrest hlive hverified
        rw [retouch_sequence, init]
        change Like renewal _ (sequence
          ((Retouch.pristine.header header).initialised header.id none) _ _)
        rw [hheader]
        exact .sequence hrecords.elim fun _ => hbelow
    | parallel header nodes running =>
        have hheader : (Retouch.pristine.header header).initialised header.id none = header :=
          initialised_pristine hrest hlive hverified
        rw [retouch_parallel, init]
        change Like renewal _ (parallel
          ((Retouch.pristine.header header).initialised header.id none) _ _)
        rw [hheader]
        exact .parallel hrecords.elim fun _ => hbelow
    | repeating header child running =>
        rw [retouch_repeating]
        rcases child with _ | child
        · have hheader : (Retouch.pristine.header header).initialised header.id
              (some .missingChild) = header := initialised_pristine hrest hlive hverified
          change Like renewal _ (repeating
            ((Retouch.pristine.header header).initialised header.id (some .missingChild)) _ _)
          rw [hheader]
          exact .repeating hrecords.elim fun _ => .nil
        · have hheader : (Retouch.pristine.header header).initialised header.id none = header :=
            initialised_pristine hrest hlive hverified
          change Like renewal _ (repeating
            ((Retouch.pristine.header header).initialised header.id none) _ _)
          rw [hheader]
          exact .repeating hrecords.elim fun _ => hbelow

end Node

end Choreo
