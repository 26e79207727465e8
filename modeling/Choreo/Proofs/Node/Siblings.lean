import Choreo.Proofs.Node.Renumbering
import Choreo.Proofs.Node.Unfolding

/-!
# Siblings

The children of a parallel know nothing of each other. As long as its record of them is right, a tick
gives every child a turn of its own, and so does an end; what happens in the turn of one child is told
under the numbers of that child, so that its part of the events can be told from the others'.
-/

namespace Choreo

/-- The event is about one of `size` nodes from a number on. -/
def Happening.within (offset size : Nat) (h : Happening) : Bool :=
  h.node.any fun id => offset ≤ id && id < offset + size

namespace Node

variable (m : Moment) (w : Surroundings)

/-- The turn of a child in a tick of its parallel: a child at rest is passed over. -/
def advance (n : Node) : Node × List Effect :=
  if n.header.active then ((n.visit m w).1, (n.visit m w).2.2) else (n, [])

theorem advance_of_active {n : Node} (hactive : n.header.active = true) :
    n.advance m w = ((n.visit m w).1, (n.visit m w).2.2) := by
  rw [advance, if_pos hactive]

theorem advance_of_not_active {n : Node} (hactive : n.header.active = false) :
    n.advance m w = (n, []) := by
  rw [advance, if_neg (by simp [hactive])]

theorem advance_of_inactive {w : Surroundings} (hw : w.active = false) (n : Node) :
    n.advance m w = n.finish := by
  have hstop : n.hasStopped w = true := by simp [hasStopped, hw]
  cases hactive : n.header.active with
  | false => rw [advance_of_not_active m w hactive, finish_of_not_active hactive]
  | true => rw [advance_of_active m w hactive, visit_of_hasStopped m w hstop]

/-- A tick of a parallel with a right record is a turn of every child. -/
theorem updateRunning_tidy (nodes : List Node) :
    updateRunning m w false (nodes.map (·.header.active)) nodes =
      (nodes.map fun n => (n.advance m w).1,
        (nodes.map fun n => (n.advance m w).1).map (·.header.active),
        nodes.flatMap fun n => (n.advance m w).2) := by
  induction nodes with
  | nil => simp [updateRunning]
  | cons n rest ih =>
      rw [List.map_cons]
      cases hactive : n.header.active with
      | false =>
          rw [updateRunning_resting, ih]
          simp [advance_of_not_active m w hactive, hactive]
      | true =>
          rw [updateRunning_running, ih]
          simp [advance_of_active m w hactive, visit_active hactive]

theorem finishRunning_tidy (nodes : List Node) :
    finishRunning (nodes.map (·.header.active)) nodes =
      (nodes.map fun n => n.finish.1, nodes.flatMap fun n => n.finish.2) := by
  induction nodes with
  | nil => simp [finishRunning]
  | cons n rest ih =>
      rw [List.map_cons, finishRunning_cons, ih]
      cases hactive : n.header.active with
      | false => simp [finish_of_not_active hactive]
      | true => simp

theorem advance_renumber (f : Nat → Nat) (n : Node) :
    (n.renumber f).advance m w = renumberResult f (n.advance m w) := by
  have hheader : (n.renumber f).header.active = n.header.active := by
    rw [renumber_header]
    rfl
  cases hactive : n.header.active with
  | false =>
      rw [hactive] at hheader
      rw [advance_of_not_active m w hactive, advance_of_not_active m w hheader]
      rfl
  | true =>
      rw [hactive] at hheader
      rw [advance_of_active m w hactive, advance_of_active m w hheader,
        visit_renumber]
      rfl

/-! ### Whose events are whose -/

variable {m w}

section Ids

variable {before after : List Node} {n next : Node} {effects : List Effect} {i : Nat}

theorem id_mem_ids_split (before after : List Node) (n : Node) :
    n.id ∈ (before ++ n :: after).flatMap ids :=
  mem_split.mpr (Or.inl n.id_mem_ids)

theorem mem_ids_split_of_below (hi : i ∈ n.children.flatMap ids) :
    i ∈ (before ++ n :: after).flatMap ids :=
  mem_split.mpr (Or.inl (mem_ids_of_mem_below hi))

/-- A node whose children have run their course has the numbers that it had. -/
theorem Course.mem_ids_split (below : Course m w n.children effects next.children)
    (hid : next.id = n.id) (hi : i ∈ (before ++ next :: after).flatMap ids) :
    i ∈ (before ++ n :: after).flatMap ids := by
  have hids : next.ids = n.ids := by
    rw [ids_eq, ids_eq, hid, List.flatMap_def, List.flatMap_def, below.map_ids_eq]
  rw [mem_split] at hi ⊢
  rwa [← hids]

end Ids

theorem Course.mem_ids {nodes result : List Node} {effects : List Effect}
    (course : Course m w nodes effects result) :
    ∀ h ∈ Effect.happenings effects, ∃ id ∈ nodes.flatMap ids, h.node = some id := by
  induction course with
  | done nodes => simp [Effect.happenings]
  | @start before after n result inner outer hrest below _ ihBelow ihNext =>
      intro h hh
      rw [happenings_append, happenings_append, List.append_assoc, List.mem_append,
        List.mem_append] at hh
      rcases hh with hh | hh | hh
      · rw [← List.singleton_append, happenings_append, happenings_writes] at hh
        obtain rfl : h = .started n.id := by
          simpa [Effect.happenings, Effect.happening?] using hh
        exact ⟨n.id, id_mem_ids_split before after n, rfl⟩
      · obtain ⟨i, hi, hnode⟩ := ihBelow h hh
        exact ⟨i, mem_ids_split_of_below hi, hnode⟩
      · obtain ⟨i, hi, hnode⟩ := ihNext h hh
        have hid : (n.start w).1.id = n.id := by rw [id, start_header]; rfl
        exact ⟨i, below.mem_ids_split hid hi, hnode⟩
  | @update before after n result inner outer hactive below _ ihBelow ihNext =>
      intro h hh
      rw [happenings_append, happenings_append, happenings_writes, List.nil_append,
        List.mem_append] at hh
      rcases hh with hh | hh
      · obtain ⟨i, hi, hnode⟩ := ihBelow h hh
        exact ⟨i, mem_ids_split_of_below hi, hnode⟩
      · obtain ⟨i, hi, hnode⟩ := ihNext h hh
        have hid : (n.update m w).1.id = n.id := by rw [id, update_header]; rfl
        exact ⟨i, below.mem_ids_split hid hi, hnode⟩
  | @finish before after n result inner outer hactive below _ ihBelow ihNext =>
      intro h hh
      rw [happenings_append, happenings_append, happenings_append, happenings_writes,
        List.nil_append, List.append_assoc, List.mem_append, List.mem_append] at hh
      rcases hh with hh | hh | hh
      · obtain ⟨i, hi, hnode⟩ := ihBelow h hh
        exact ⟨i, mem_ids_split_of_below hi, hnode⟩
      · obtain rfl : h = .ended n.id := by
          simpa [Effect.happenings, Effect.happening?] using hh
        exact ⟨n.id, id_mem_ids_split before after n, rfl⟩
      · obtain ⟨i, hi, hnode⟩ := ihNext h hh
        have hid : n.finish.1.id = n.id := by rw [id, finish_header hactive]; rfl
        exact ⟨i, below.mem_ids_split hid hi, hnode⟩

/-- A turn that leaves a tree sound and numbered as it was, and tells only of that tree. -/
structure Local (n : Node) (result : Node × List Effect) : Prop where
  sound : result.1.Sound
  ids : result.1.ids = n.ids
  about : ∀ h ∈ Effect.happenings result.2, ∃ id ∈ n.ids, h.node = some id

theorem Proceeds.isLocal {n : Node} {result : Node × List Effect} (h : Proceeds m w n result) :
    Local n result := by
  refine ⟨h.sound, ?_, ?_⟩
  · simpa using h.course.map_ids_eq
  · simpa using h.course.mem_ids

theorem local_of_rest {n : Node} (hsound : n.Sound) : Local n (n, []) :=
  ⟨hsound, rfl, by simp [Effect.happenings]⟩

theorem finish_proceeds {n : Node} (hsound : n.Sound) :
    n.finish = (n, []) ∨ Proceeds m w n n.finish := by
  cases hactive : n.header.active with
  | false => exact Or.inl (finish_of_not_active hactive)
  | true => exact Or.inr (hsound.operable.finish hactive)

theorem advance_proceeds {n : Node} (hsound : n.Sound) :
    n.advance m w = (n, []) ∨ Proceeds m w n (n.advance m w) := by
  cases hactive : n.header.active with
  | false => exact Or.inl (advance_of_not_active m w hactive)
  | true =>
      rw [advance_of_active m w hactive]
      cases hstop : n.hasStopped w with
      | true =>
          rw [visit_of_hasStopped m w hstop]
          exact finish_proceeds hsound
      | false =>
          rw [visit_of_not_hasStopped m w hstop]
          exact Or.inr (hsound.operable.update hactive)

theorem local_finish {n : Node} (hsound : n.Sound) : Local n n.finish := by
  -- The moment and the surroundings play no part in an end.
  rcases finish_proceeds (m := ⟨0, 0⟩) (w := {}) hsound with hrest | hproceeds
  · rw [hrest]
    exact local_of_rest hsound
  · exact hproceeds.isLocal

theorem local_start {n : Node} (hsound : n.Sound) (hrest : n.header.active = false)
    (w : Surroundings) : Local n (n.start w) :=
  (hsound.operable.start (m := ⟨0, 0⟩) hrest).isLocal

theorem local_advance {n : Node} (hsound : n.Sound) (m : Moment) (w : Surroundings) :
    Local n (n.advance m w) := by
  rcases advance_proceeds (m := m) (w := w) hsound with hrest | hproceeds
  · rw [hrest]
    exact local_of_rest hsound
  · exact hproceeds.isLocal

theorem happenings_flatMap (nodes : List Node) (turn : Node → Node × List Effect) :
    Effect.happenings (nodes.flatMap fun n => (turn n).2) =
      nodes.flatMap fun n => Effect.happenings (turn n).2 := by
  rw [Effect.happenings, List.filterMap_flatMap]
  rfl

/-- **Of the events of siblings, those within the numbers of one are the events of its turn.** -/
theorem filter_within {turn : Node → Node × List Effect} {before after : List Node} {n : Node}
    {offset size : Nat} (hlocal : ∀ k ∈ before ++ n :: after, Local k (turn k))
    (hids : ((before ++ n :: after).flatMap ids).Nodup)
    (hn : n.ids = List.range' offset size) :
    (Effect.happenings ((before ++ n :: after).flatMap fun k => (turn k).2)).filter
        (Happening.within offset size) = Effect.happenings (turn n).2 := by
  obtain ⟨_, _, hdisjoint⟩ := nodup_split hids
  have hmem : ∀ i, i ∈ n.ids ↔ (decide (offset ≤ i) && decide (i < offset + size)) = true := by
    intro i
    rw [hn, List.mem_range'_1, Bool.and_eq_true, decide_eq_true_iff, decide_eq_true_iff]
  have hothers : ∀ k ∈ before ++ after, ∀ h ∈ Effect.happenings (turn k).2,
      h.within offset size = false := by
    intro k hk h hh
    have hkAll : k ∈ before ++ n :: after := by
      rcases List.mem_append.mp hk with hk | hk <;> simp [hk]
    obtain ⟨i, hi, hnode⟩ := (hlocal k hkAll).about h hh
    have hnot : i ∉ n.ids := by
      intro hin
      exact hdisjoint i hin (List.mem_flatMap.mpr ⟨k, hk, hi⟩)
    rw [hmem] at hnot
    rw [Happening.within, hnode]
    simpa using hnot
  have hown : ∀ h ∈ Effect.happenings (turn n).2, h.within offset size = true := by
    intro h hh
    obtain ⟨i, hi, hnode⟩ := (hlocal n (by simp)).about h hh
    rw [hmem] at hi
    rw [Happening.within, hnode]
    exact hi
  have hnone : ∀ nodes ⊆ before ++ after,
      (nodes.flatMap fun k => Effect.happenings (turn k).2).filter
        (Happening.within offset size) = [] := by
    intro nodes hnodes
    rw [List.filter_eq_nil_iff]
    intro h hh
    obtain ⟨k, hk, hh⟩ := List.mem_flatMap.mp hh
    simp [hothers k (hnodes hk) h hh]
  rw [happenings_flatMap, List.flatMap_append, List.flatMap_cons, List.filter_append,
    List.filter_append, hnone before (by simp), hnone after (by simp),
    List.filter_eq_self.mpr hown, List.nil_append, List.append_nil]

end Node

end Choreo
