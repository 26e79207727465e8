import Choreo.Proofs.Node.Unfolding
import Choreo.Script
import Mathlib.Algebra.Order.BigOperators.Group.List
import Mathlib.Algebra.Order.Group.Nat

/-!
# The forest of a script

A tree script runs one tree. A flat script runs its actions one after another, without a node above
them: a forest of trees of one node each. A composite among the actions is at fault, so nothing below
it is ever numbered or started, and it counts as a tree of one node like the others.

Every operation of a script is a course of its forest, which carries what is known of the courses of
trees over to whole scripts.
-/

namespace Choreo

namespace Node

/-- A composite without what is below it. A leaf is alone already. -/
def alone : Node → Node
  | leaf h a => leaf h a
  | n => repeating n.header none false

/-- A flat script runs leaves, and turns composites away: they are at fault and never live. -/
def Flat (n : Node) : Prop :=
  n.isComposite = true → n.header.fault.isSome = true ∧ n.header.live = false

@[simp]
theorem alone_header (n : Node) : n.alone.header = n.header := by
  cases n <;> rfl

@[simp]
theorem alone_id (n : Node) : n.alone.id = n.id := by
  rw [id, id, alone_header]

@[simp]
theorem alone_children (n : Node) : n.alone.children = [] := by
  cases n <;> rfl

theorem sound_alone {n : Node} (hlive : n.header.live = false) : n.alone.Sound := by
  have horder : n.alone.InOrder := inOrder_of_rest (by simpa using hlive) (by simp)
  exact (sound_iff _).mpr ⟨⟨by simp [hlive], by simp [hlive], horder⟩, by simp⟩

@[simp]
theorem alone_withHeader (n : Node) (h : Header) : (n.withHeader h).alone = n.alone.withHeader h := by
  cases n <;> rfl

/-! ### A flat action alone does what it does in full -/

variable (m : Moment) (w : Surroundings)

theorem start_alone {n : Node} (hflat : n.Flat) :
    n.alone.start w = ((n.start w).1.alone, (n.start w).2) ∧ (n.start w).1.Flat := by
  cases hkind : n.isComposite with
  | false =>
      obtain ⟨h, a, rfl⟩ := exists_leaf hkind
      rw [alone, start]
      split <;> exact ⟨rfl, by simp [Flat, isComposite]⟩
  | true =>
      obtain ⟨hfault, _⟩ := hflat hkind
      have hlive : n.header.opened.live = false := by
        simp only [Header.opened, Bool.and_eq_false_iff]
        exact Or.inr (by simpa using hfault)
      rw [start_of_not_live w hlive, start_of_not_live w (by simpa using hlive)]
      exact ⟨by simp, fun _ => ⟨by simpa [Header.opened] using hfault, by simpa using hlive⟩⟩

theorem update_alone {n : Node} (hflat : n.Flat) :
    n.alone.update m w = ((n.update m w).1.alone, (n.update m w).2) ∧ (n.update m w).1.Flat := by
  cases hkind : n.isComposite with
  | false =>
      obtain ⟨h, a, rfl⟩ := exists_leaf hkind
      rw [alone, update_leaf]
      split <;> exact ⟨rfl, by simp [Flat, isComposite]⟩
  | true =>
      obtain ⟨_, hlive⟩ := hflat hkind
      rw [update_of_not_live m w hlive, update_of_not_live m w (by simpa using hlive)]
      exact ⟨rfl, hflat⟩

theorem finish_alone {n : Node} (hflat : n.Flat) :
    n.alone.finish = (n.finish.1.alone, n.finish.2) ∧ n.finish.1.Flat := by
  cases hactive : n.header.active with
  | false =>
      rw [finish_of_not_active hactive, finish_of_not_active (by simpa using hactive)]
      exact ⟨rfl, hflat⟩
  | true =>
    cases hkind : n.isComposite with
    | false =>
        obtain ⟨h, a, rfl⟩ := exists_leaf hkind
        rw [alone, finish]
        split <;> exact ⟨rfl, by simp [Flat, isComposite]⟩
    | true =>
        obtain ⟨hfault, hlive⟩ := hflat hkind
        rw [finish_of_not_live hactive hlive,
          finish_of_not_live (by simpa using hactive) (by simpa using hlive)]
        exact ⟨by simp, fun _ => ⟨by simpa [Header.closed] using hfault, by simp [Header.closed]⟩⟩

theorem hasStopped_alone {n : Node} (hflat : n.Flat) : n.alone.hasStopped w = n.hasStopped w := by
  cases hkind : n.isComposite with
  | false =>
      obtain ⟨h, a, rfl⟩ := exists_leaf hkind
      rfl
  | true =>
      obtain ⟨hfault, _⟩ := hflat hkind
      simp [hasStopped, hfault]

theorem walk_alone {nodes : List Node} (hflat : ∀ n ∈ nodes, n.Flat) (cursor : Cursor) :
    walk m w cursor (nodes.map alone) =
        ((walk m w cursor nodes).1.map alone, (walk m w cursor nodes).2) ∧
      ∀ n ∈ (walk m w cursor nodes).1, n.Flat := by
  induction cursor, nodes using Cursor.walkInduction with
  | nil cursor => cases cursor <;> simp [walk]
  | finished next nodes => exact ⟨by simp [walk], by simpa [walk] using hflat⟩
  | shift cursor n rest ih =>
      obtain ⟨hn, hrest⟩ := List.forall_mem_cons.mp hflat
      obtain ⟨hwalk, hresult⟩ := ih hrest
      rw [List.map_cons, walk_shift, walk_shift, hwalk]
      exact ⟨rfl, List.forall_mem_cons.mpr ⟨hn, hresult⟩⟩
  | running n rest ih =>
      obtain ⟨hn, hrest⟩ := List.forall_mem_cons.mp hflat
      obtain ⟨hwalk, hresult⟩ := ih hrest
      rw [List.map_cons, walk_running, walk_running, hasStopped_alone w hn]
      split
      · rw [(finish_alone hn).1, hwalk]
        exact ⟨rfl, List.forall_mem_cons.mpr ⟨(finish_alone hn).2, hresult⟩⟩
      · rw [(update_alone m w hn).1]
        exact ⟨rfl, List.forall_mem_cons.mpr ⟨(update_alone m w hn).2, hrest⟩⟩
  | ready n rest ih =>
      obtain ⟨hn, hrest⟩ := List.forall_mem_cons.mp hflat
      obtain ⟨hstart, hstarted⟩ := start_alone w hn
      obtain ⟨hwalk, hresult⟩ := ih (n.start w).1 (List.forall_mem_cons.mpr ⟨hstarted, hrest⟩)
      rw [List.map_cons] at hwalk
      rw [List.map_cons, walk_ready, walk_ready, hstart, hwalk]
      exact ⟨rfl, hresult⟩

theorem finishAt_alone {nodes : List Node} (hflat : ∀ n ∈ nodes, n.Flat) (cursor : Cursor) :
    finishAt cursor (nodes.map alone) =
      ((finishAt cursor nodes).1.map alone, (finishAt cursor nodes).2) := by
  induction nodes generalizing cursor with
  | nil => cases cursor <;> simp [finishAt]
  | cons n rest ih =>
      have ih := ih fun k hk => hflat k (by simp [hk])
      cases cursor using Cursor.headCases with
      | ready => simp [finishAt]
      | running =>
          rw [List.map_cons, finishAt_running, finishAt_running,
            (finish_alone (hflat n (by simp))).1]
          rfl
      | finished => simp [finishAt]
      | shift cursor =>
          rw [List.map_cons, finishAt_shift, finishAt_shift, ih]
          rfl

theorem flat_of_mem_initFlatAll {first : Nat} {nodes : List Node} {k : Node}
    (hk : k ∈ (initFlatAll w first nodes).1) :
    k.Flat ∧ k.header.active = false ∧ k.header.live = false := by
  induction nodes generalizing first with
  | nil => simp [initFlatAll] at hk
  | cons n rest ih =>
      rw [initFlatAll] at hk
      rcases List.mem_cons.mp hk with rfl | hk
      · rw [initFlat]
        split
        · simp [reject, checked, Flat, Header.initialised]
        · next hkind =>
          obtain ⟨h, a, rfl⟩ := exists_leaf (Bool.eq_false_iff.mpr hkind)
          refine ⟨?_, by simp, by simp⟩
          rw [init]
          split <;> simp [Flat, isComposite, checked, withHeader]
      · exact ih hk

theorem ids_initFlatAll (first : Nat) (nodes : List Node) :
    ((initFlatAll w first nodes).1.map alone).flatMap ids = List.range' first nodes.length := by
  induction nodes generalizing first with
  | nil => rfl
  | cons n rest ih =>
      have hid : (n.initFlat w first).1.id = first := by
        rw [initFlat]
        split
        · simp [reject, checked, id, Header.initialised]
        · simp
      have hn : (n.initFlat w first).1.alone.ids = [first] := by
        rw [ids_eq, alone_id, alone_children, hid]
        rfl
      rw [initFlatAll, List.map_cons, List.flatMap_cons, hn, List.length_cons, List.range'_succ]
      exact congrArg _ (ih (first + 1))

theorem marks_alone (cursor : Cursor) (nodes : List Node) :
    cursor.Marks (nodes.map alone) ↔ cursor.Marks nodes :=
  cursor.marks_map (fun n => by rw [alone_header]) nodes

end Node

namespace Script

open Node

def forest : Script → List Node
  | tree root => [root]
  | flat actions _ => actions.map alone

def ids (s : Script) : List Nat := s.forest.flatMap Node.ids

def edges (s : Script) : List (Nat × Nat) := s.forest.flatMap Node.edges

/-- A script between its start and its end. -/
structure Underway (s : Script) : Prop where
  sound : ∀ n ∈ s.forest, n.Sound
  standing : match s with
    | tree root => root.header.active = true
    | flat actions cursor => (∀ n ∈ actions, n.Flat) ∧ cursor.Marks actions

/-- A script that has been initialised and not started. -/
structure Prepared (s : Script) : Prop where
  sound : ∀ n ∈ s.forest, n.Sound
  rest : ∀ n ∈ s.forest, n.header.active = false
  nodup : s.ids.Nodup
  flat : match s with
    | tree _ => True
    | flat actions _ => ∀ n ∈ actions, n.Flat

theorem prepared_init (w : Surroundings) (s : Script) : (s.init w).1.Prepared := by
  cases s with
  | tree root =>
      refine ⟨?_, ?_, ?_, trivial⟩
      · simpa [init, forest] using root.sound_init w 0
      · simp [init, forest]
      · have hids : (Script.init w (tree root)).1.ids = List.range' 0 root.size := by
          simpa [init, ids, forest] using root.ids_init w 0
        rw [hids]
        exact List.nodup_range'
  | flat actions cursor =>
      have hactions : ∀ k ∈ (initFlatAll w 0 actions).1,
          k.Flat ∧ k.header.active = false ∧ k.header.live = false :=
        fun k hk => flat_of_mem_initFlatAll w hk
      refine ⟨?_, ?_, ?_, fun n hn => (hactions n hn).1⟩
      · intro k hk
        obtain ⟨n, hn, rfl⟩ := List.mem_map.mp hk
        exact sound_alone (hactions n hn).2.2
      · intro k hk
        obtain ⟨n, hn, rfl⟩ := List.mem_map.mp hk
        rw [alone_header]
        exact (hactions n hn).2.1
      · have hids := ids_initFlatAll w 0 actions
        rw [ids, show (Script.init w (flat actions cursor)).1.forest =
          (initFlatAll w 0 actions).1.map alone from rfl, hids]
        exact List.nodup_range'

theorem Prepared.not_live {s : Script} (h : s.Prepared) : ∀ n ∈ s.forest.flatMap preorder,
    n.header.live = false := by
  intro n hn
  obtain ⟨root, hroot, hn⟩ := List.mem_flatMap.mp hn
  have hsound := h.sound root hroot
  exact (hsound.of_mem_preorder hn).live_of_not_active
    (not_active_of_mem_preorder hsound (h.rest root hroot) hn)

/-! ### Operations are courses -/

variable {m : Moment} {w : Surroundings}

theorem course_of_turns {nodes result : List Node} {effects : List Effect}
    (turns : Turns m w nodes effects result) (hsound : ∀ n ∈ nodes, n.Sound) :
    Course m w nodes effects result ∧ ∀ n ∈ result, n.Sound := by
  have hoperable : ∀ n : Node, n.size < (nodes.map size).sum + 1 → n.Sound → Operable m w n :=
    fun n _ hn => hn.operable
  exact turns.course hoperable fun n hn => ⟨size_lt_sum_of_mem hn, hsound n hn⟩

theorem Prepared.start {s : Script} (h : s.Prepared) :
    Course m w s.forest (s.start w).2 (s.start w).1.forest ∧ (s.start w).1.Underway := by
  obtain ⟨hsound, hrest, _, hflat⟩ := h
  cases s with
  | tree root =>
      have hroot : root.Sound := hsound root (by simp [forest])
      have hproceeds := hroot.operable.start (m := m) (w := w) (hrest root (by simp [forest]))
      refine ⟨hproceeds.course, ⟨?_, ?_⟩⟩
      · simpa [Script.start, forest] using hproceeds.sound
      · simp [Script.start, Header.opened]
  | flat actions cursor =>
      have hmarks : (Cursor.ready 0).Marks actions := by
        rw [Cursor.marks_ready]
        intro n hn
        rw [← alone_header]
        exact hrest n.alone (List.mem_map_of_mem hn)
      exact ⟨.done _, ⟨hsound, hflat, hmarks⟩⟩

theorem Underway.update {s : Script} (h : s.Underway) :
    Course m w s.forest (s.update m w).2 (s.update m w).1.forest ∧ (s.update m w).1.Underway := by
  obtain ⟨hsound, hstanding⟩ := h
  cases s with
  | tree root =>
      have hroot : root.Sound := hsound root (by simp [forest])
      have hproceeds := hroot.operable.update (m := m) (w := w) hstanding
      refine ⟨hproceeds.course, ⟨?_, ?_⟩⟩
      · simpa [Script.update, forest] using hproceeds.sound
      · simpa [Script.update] using hstanding
  | flat actions cursor =>
      obtain ⟨hflat, hmarks⟩ := hstanding
      obtain ⟨hwalk, hafter⟩ := walk_alone m w hflat cursor
      have hturns := turns_walk (m := m) (w := w) ((marks_alone cursor actions).mpr hmarks)
      rw [hwalk] at hturns
      obtain ⟨hcourse, hresult⟩ := course_of_turns hturns.1 hsound
      exact ⟨hcourse, ⟨hresult, hafter, (marks_alone _ _).mp hturns.2⟩⟩

theorem Underway.finish {s : Script} (h : s.Underway) :
    Course m w s.forest s.finish.2 s.finish.1.forest ∧ opened s.finish.1.forest = ∅ := by
  obtain ⟨hsound, hstanding⟩ := h
  cases s with
  | tree root =>
      have hroot : root.Sound := hsound root (by simp [forest])
      have hproceeds := hroot.operable.finish (m := m) (w := w) hstanding
      refine ⟨hproceeds.course, opened_of_rest ?_ ?_⟩
      · simpa [Script.finish, forest] using hproceeds.sound
      · simp [Script.finish, forest]
  | flat actions cursor =>
      obtain ⟨hflat, hmarks⟩ := hstanding
      have hfinish := finishAt_alone hflat cursor
      obtain ⟨hturns, hrest⟩ :=
        turns_finishAt (m := m) (w := w) ((marks_alone cursor actions).mpr hmarks)
      rw [hfinish] at hturns hrest
      obtain ⟨hcourse, hresult⟩ := course_of_turns hturns hsound
      exact ⟨hcourse, opened_of_rest hresult hrest⟩

end Script

end Choreo
