import Choreo.Proofs.Discipline
import Choreo.Proofs.Node.Siblings

/-!
# No restart within a tick

A repeating node waits for the next tick before it starts its child again, and a sequence only moves
on. So however repeating nodes, sequences and parallels are nested, a node that ends in a tick stays
at rest until the tick is over. Since the starts and ends of a node take turns, all that can happen to
a node in one tick is a start, an end, or a start followed by an end.
-/

namespace Choreo

/-- No node is started after it has ended. -/
def NeverRestarts (trace : List Happening) : Prop :=
  trace.Pairwise fun h k => ∀ id, h = .ended id → k ≠ .started id

theorem neverRestarts_append {trace more : List Happening} :
    NeverRestarts (trace ++ more) ↔ NeverRestarts trace ∧ NeverRestarts more ∧
      ∀ id, .ended id ∈ trace → .started id ∉ more := by
  rw [NeverRestarts, List.pairwise_append]
  refine and_congr_right fun _ => and_congr_right fun _ => ?_
  constructor
  · intro h id hended hstarted
    exact h _ hended _ hstarted id rfl rfl
  · rintro h _ hx _ hy id rfl rfl
    exact h id hx hy

theorem neverRestarts_of_no_end {trace : List Happening} (h : ∀ id, .ended id ∉ trace) :
    NeverRestarts trace := by
  apply List.pairwise_of_forall_mem_list
  rintro _ hx _ _ id rfl
  exact absurd hx (h id)

theorem neverRestarts_of_no_start {trace : List Happening} (h : ∀ id, .started id ∉ trace) :
    NeverRestarts trace := by
  apply List.pairwise_of_forall_mem_list
  rintro _ _ _ hy id _ rfl
  exact h id hy

/-- Starts and ends that take turns and never begin anew are one window at most. -/
theorem sublist_of_isPrefix_alternation {id times : Nat} {trace : List Happening}
    (hbegins : trace <+: alternation id times) (hnever : NeverRestarts trace) :
    trace <+: [.started id, .ended id] := by
  cases times with
  | zero =>
      obtain rfl : trace = [] := List.prefix_nil.mp hbegins
      exact List.nil_prefix
  | succ times =>
      have hsplit : alternation id (times + 1) =
          [Happening.started id, .ended id] ++ alternation id times := by
        simp [alternation, List.replicate_succ]
      rw [hsplit] at hbegins
      by_cases hlength : trace.length ≤ 2
      · exact List.prefix_of_prefix_length_le hbegins (List.prefix_append _ _) hlength
      obtain ⟨more, rfl⟩ : [Happening.started id, .ended id] <+: trace :=
        List.prefix_of_prefix_length_le (List.prefix_append _ _) hbegins (by simp; omega)
      have hmore : more <+: alternation id times := (List.prefix_append_right_inj _).mp hbegins
      cases more with
      | nil => simp at hlength
      | cons h more =>
          cases times with
          | zero => simp [alternation] at hmore
          | succ times =>
              obtain rfl : h = .started id := by
                have hhead := (List.cons_prefix_cons.mp hmore).1
                exact hhead
              have hcontra := (neverRestarts_append.mp hnever).2.2 id (by simp)
              exact absurd List.mem_cons_self hcontra

theorem Unfolds.lifecycleOf_sublist {range : Set Nat} {legal : Set Nat → Prop}
    {opened final : Set Nat} {trace : List Happening} (h : Unfolds range legal opened trace final)
    (hnever : NeverRestarts trace) (id : Nat) :
    (lifecycleOf id trace).Sublist [.started id, .ended id] := by
  have hlifecycle : NeverRestarts (lifecycleOf id trace) := hnever.filter _
  obtain ⟨hclosed, hopen⟩ := h.alternates_of_mem_or_not id
  by_cases hid : id ∈ opened
  · obtain ⟨times, htimes⟩ := hopen hid
    have hcons : lifecycleOf id (.started id :: trace) = .started id :: lifecycleOf id trace := by
      simp [lifecycleOf]
    have hnever' : NeverRestarts (.started id :: lifecycleOf id trace) :=
      List.pairwise_cons.mpr ⟨by simp, hlifecycle⟩
    rw [hcons] at htimes
    have hbegins := sublist_of_isPrefix_alternation htimes hnever'
    exact (List.cons_prefix_cons.mp hbegins).2.sublist.trans (List.sublist_cons_self _ _)
  · obtain ⟨times, htimes⟩ := hclosed hid
    exact (sublist_of_isPrefix_alternation htimes hlifecycle).sublist

namespace Node

variable {m : Moment} {w : Surroundings}

/-! ### Starting only opens and ending only closes -/

theorem mem_happenings {h : Happening} {effects : List Effect} :
    h ∈ Effect.happenings effects ↔ .event h ∈ effects := by
  rw [Effect.happenings, List.mem_filterMap]
  constructor
  · rintro ⟨e, he, heq⟩
    cases e with
    | event k =>
        obtain rfl : k = h := Option.some.inj heq
        exact he
    | write x => cases heq
  · exact fun he => ⟨_, he, rfl⟩

theorem mem_finishAt {e : Effect} {cursor : Cursor} {nodes : List Node}
    (he : e ∈ (finishAt cursor nodes).2) : ∃ c ∈ nodes, e ∈ c.finish.2 := by
  induction nodes generalizing cursor with
  | nil => cases cursor <;> simp [finishAt] at he
  | cons n rest ih =>
      cases cursor using Cursor.headCases with
      | ready => simp [finishAt] at he
      | finished next => simp [finishAt] at he
      | running =>
          rw [finishAt_running] at he
          exact ⟨n, by simp, he⟩
      | shift cursor =>
          rw [finishAt_shift] at he
          obtain ⟨c, hc, he⟩ := ih he
          exact ⟨c, by simp [hc], he⟩

theorem mem_finishRunning {e : Effect} {running : List Bool} {nodes : List Node}
    (he : e ∈ (finishRunning running nodes).2) : ∃ c ∈ nodes, e ∈ c.finish.2 := by
  induction nodes generalizing running with
  | nil => cases running <;> simp [finishRunning] at he
  | cons n rest ih =>
      cases running with
      | nil => simp [finishRunning] at he
      | cons flag running =>
          rw [finishRunning_cons, List.mem_append] at he
          rcases he with he | he
          · cases flag with
            | false => simp at he
            | true => exact ⟨n, by simp, he⟩
          · obtain ⟨c, hc, he⟩ := ih he
            exact ⟨c, by simp [hc], he⟩

theorem eq_started_of_mem_start {n : Node} {h : Happening} (hmem : .event h ∈ (n.start w).2) :
    ∃ id, h = .started id := by
  induction n with
  | node n ih =>
    cases hlive : n.header.opened.live with
    | false =>
        rw [start_of_not_live w hlive] at hmem
        exact ⟨n.id, by simpa using hmem⟩
    | true =>
      cases n with
      | leaf header a =>
          rw [start_leaf w header hlive] at hmem
          exact ⟨header.id, by simpa using hmem⟩
      | sequence header nodes cursor =>
          rw [start_sequence w header hlive] at hmem
          exact ⟨header.id, by simpa using hmem⟩
      | parallel header nodes running =>
          rw [start_parallel w header hlive, List.mem_cons, List.mem_flatMap] at hmem
          rcases hmem with hmem | ⟨c, hc, hmem⟩
          · exact ⟨header.id, by simpa using hmem⟩
          · exact ih c hc hmem
      | repeating header child running =>
          rw [start_repeating w header hlive] at hmem
          exact ⟨header.id, by simpa using hmem⟩

theorem ended_not_mem_start (w : Surroundings) (n : Node) (id : Nat) :
    .event (.ended id) ∉ (n.start w).2 := by
  intro hmem
  obtain ⟨i, hi⟩ := eq_started_of_mem_start hmem
  cases hi

/-- What an end does besides closing nodes is to take velocities back. -/
theorem mem_finish {n : Node} {e : Effect} (he : e ∈ n.finish.2) :
    e = .write (.velocity .zero) ∨ ∃ id, e = .event (.ended id) := by
  induction n with
  | node n ih =>
    have hown : ∀ id, e = .event (.ended id) →
        e = .write (.velocity .zero) ∨ ∃ id, e = .event (.ended id) := fun id h => Or.inr ⟨id, h⟩
    cases hactive : n.header.active with
    | false =>
        rw [finish_of_not_active hactive] at he
        simp at he
    | true =>
      cases hlive : n.header.live with
      | false =>
          rw [finish_of_not_live hactive hlive] at he
          exact hown n.id (by simpa using he)
      | true =>
        -- Whatever is done apart from the node's own end is done by the end of a child.
        have hbelow : ∀ effects : List Effect, (∀ e ∈ effects, ∃ c ∈ n.children, e ∈ c.finish.2) →
            e ∈ effects ++ [.event (.ended n.id)] →
            e = .write (.velocity .zero) ∨ ∃ id, e = .event (.ended id) := by
          intro effects heffects he
          rcases List.mem_append.mp he with he | he
          · obtain ⟨c, hc, he⟩ := heffects _ he
            exact ih c hc he
          · exact hown n.id (by simpa using he)
        cases n with
        | leaf h a =>
            rw [finish_leaf h hactive hlive] at he
            rcases List.mem_append.mp he with he | he
            · obtain ⟨x, hx, rfl⟩ := List.mem_map.mp he
              rw [Leaf.finish] at hx
              split at hx
              · exact Or.inl (congrArg _ (by simpa using hx))
              · simp at hx
            · exact hown h.id (by simpa using he)
        | sequence h nodes cursor =>
            rw [finish_sequence h hactive hlive] at he
            exact hbelow _ (fun e he => mem_finishAt he) he
        | parallel h nodes running =>
            rw [finish_parallel h hactive hlive] at he
            exact hbelow _ (fun e he => mem_finishRunning he) he
        | repeating h child running =>
            rcases child with _ | child
            · rw [finish_vacant h hactive] at he
              exact hown h.id (by simpa using he)
            cases running with
            | true =>
                rw [finish_repeating_running h hactive hlive] at he
                exact hbelow _ (fun e he => ⟨child, by simp [children], he⟩) he
            | false =>
                rw [finish_repeating_resting h hactive] at he
                exact hown h.id (by simpa using he)

theorem eq_ended_of_mem_finish {n : Node} {h : Happening} (hmem : .event h ∈ n.finish.2) :
    ∃ id, h = .ended id := by
  rcases mem_finish hmem with hwrite | ⟨id, hended⟩
  · cases hwrite
  · exact ⟨id, Effect.event.inj hended⟩

theorem started_not_mem_finish (n : Node) (id : Nat) : .event (.started id) ∉ n.finish.2 := by
  intro hmem
  obtain ⟨i, hi⟩ := eq_ended_of_mem_finish hmem
  cases hi

theorem neverRestarts_start (w : Surroundings) (n : Node) :
    NeverRestarts (Effect.happenings (n.start w).2) :=
  neverRestarts_of_no_end fun id hmem => n.ended_not_mem_start w id (mem_happenings.mp hmem)

theorem neverRestarts_finish (n : Node) : NeverRestarts (Effect.happenings n.finish.2) :=
  neverRestarts_of_no_start fun id hmem => n.started_not_mem_finish id (mem_happenings.mp hmem)

theorem neverRestarts_start_append {n : Node} {effects : List Effect}
    (h : NeverRestarts (Effect.happenings effects)) :
    NeverRestarts (Effect.happenings ((n.start w).2 ++ effects)) := by
  rw [happenings_append, neverRestarts_append]
  refine ⟨n.neverRestarts_start w, h, fun id hended => ?_⟩
  exact absurd (mem_happenings.mp hended) (n.ended_not_mem_start w id)

/-! ### Updating -/

/-- Two turns that tell of different nodes do not interfere. -/
theorem neverRestarts_apart {first second : List Effect} {left right : List Nat}
    (hfirst : NeverRestarts (Effect.happenings first))
    (hsecond : NeverRestarts (Effect.happenings second))
    (hleft : ∀ h ∈ Effect.happenings first, ∃ id ∈ left, h.node = some id)
    (hright : ∀ h ∈ Effect.happenings second, ∃ id ∈ right, h.node = some id)
    (hdisjoint : left.Disjoint right) :
    NeverRestarts (Effect.happenings (first ++ second)) := by
  rw [happenings_append, neverRestarts_append]
  refine ⟨hfirst, hsecond, fun id hended hstarted => ?_⟩
  obtain ⟨i, hi, hended⟩ := hleft _ hended
  obtain ⟨k, hk, hstarted⟩ := hright _ hstarted
  obtain rfl : id = i := Option.some.inj hended
  obtain rfl : id = k := Option.some.inj hstarted
  exact hdisjoint hi hk

theorem disjoint_of_nodup {n : Node} {rest : List Node} (hids : ((n :: rest).flatMap ids).Nodup) :
    n.ids.Nodup ∧ (rest.flatMap ids).Nodup ∧ n.ids.Disjoint (rest.flatMap ids) := by
  rw [List.flatMap_cons, List.nodup_append'] at hids
  exact hids

section Update

variable {bound : Nat}
  (hupdate : ∀ k : Node, k.size < bound → k.Sound → k.ids.Nodup →
    NeverRestarts (Effect.happenings (k.update m w).2))
include hupdate

theorem neverRestarts_visit_of_lt {n : Node} (hn : n.size < bound) (hsound : n.Sound)
    (hids : n.ids.Nodup) : NeverRestarts (Effect.happenings (n.visit m w).2.2) := by
  cases hstop : n.hasStopped w with
  | true =>
      rw [visit_of_hasStopped m w hstop]
      exact n.neverRestarts_finish
  | false =>
      rw [visit_of_not_hasStopped m w hstop]
      exact hupdate n hn hsound hids

theorem neverRestarts_advanceAll_of_lt {nodes : List Node}
    (hnodes : ∀ n ∈ nodes, n.size < bound ∧ n.Sound) (hids : (nodes.flatMap ids).Nodup) :
    NeverRestarts (Effect.happenings (nodes.flatMap fun n => (n.advance m w).2)) := by
  induction nodes with
  | nil => exact List.Pairwise.nil
  | cons n rest ih =>
      obtain ⟨hsize, hsound⟩ := hnodes n (by simp)
      obtain ⟨hnIds, hrestIds, hdisjoint⟩ := disjoint_of_nodup hids
      have hrest : ∀ k ∈ rest, k.size < bound ∧ k.Sound := fun k hk => hnodes k (by simp [hk])
      have hturn : NeverRestarts (Effect.happenings (n.advance m w).2) := by
        cases hactive : n.header.active with
        | false =>
            rw [advance_of_not_active m w hactive]
            exact List.Pairwise.nil
        | true =>
            rw [advance_of_active m w hactive]
            exact neverRestarts_visit_of_lt hupdate hsize hsound hnIds
      have hothers : ∀ h ∈ Effect.happenings (rest.flatMap fun k => (k.advance m w).2),
          ∃ id ∈ rest.flatMap ids, h.node = some id := by
        intro h hh
        rw [happenings_flatMap] at hh
        obtain ⟨k, hk, hh⟩ := List.mem_flatMap.mp hh
        obtain ⟨id, hid, hnode⟩ := (local_advance (hrest k hk).2 m w).about h hh
        exact ⟨id, List.mem_flatMap.mpr ⟨k, hk, hid⟩, hnode⟩
      rw [List.flatMap_cons]
      exact neverRestarts_apart hturn (ih hrest hrestIds) (local_advance hsound m w).about hothers
        hdisjoint

theorem neverRestarts_walk_of_lt {nodes : List Node} {cursor : Cursor}
    (hnodes : ∀ n ∈ nodes, n.size < bound ∧ n.Sound) (hids : (nodes.flatMap ids).Nodup)
    (hmarks : cursor.Marks nodes) :
    NeverRestarts (Effect.happenings (walk m w cursor nodes).2.2) := by
  induction cursor, nodes using Cursor.walkInduction with
  | nil cursor => cases cursor <;> simp [walk, Effect.happenings, NeverRestarts]
  | finished next nodes => simp [walk, Effect.happenings, NeverRestarts]
  | shift cursor n rest ih =>
      obtain ⟨_, hmarks⟩ := (cursor.marks_shift n rest).mp hmarks
      obtain ⟨_, hrestIds, _⟩ := disjoint_of_nodup hids
      rw [walk_shift]
      exact ih (fun k hk => hnodes k (by simp [hk])) hrestIds hmarks
  | running n rest ih =>
      obtain ⟨hsize, hsound⟩ := hnodes n (by simp)
      obtain ⟨hnIds, hrestIds, hdisjoint⟩ := disjoint_of_nodup hids
      have hrest : ∀ k ∈ rest, k.size < bound ∧ k.Sound := fun k hk => hnodes k (by simp [hk])
      have hready : (Cursor.ready 0).Marks rest := (Cursor.marks_ready rest).mpr hmarks.2
      rw [walk_running]
      split
      · obtain ⟨hcourse, _⟩ := Script.course_of_turns (turns_walk (m := m) (w := w) hready).1
          fun k hk => (hrest k hk).2
        exact neverRestarts_apart n.neverRestarts_finish (ih hrest hrestIds hready)
          (local_finish hsound).about hcourse.mem_ids hdisjoint
      · exact hupdate n hsize hsound hnIds
  | ready n rest ih =>
      obtain ⟨hsize, hsound⟩ := hnodes n (by simp)
      rw [Cursor.marks_ready] at hmarks
      have hlocal := local_start hsound (hmarks n (by simp)) w
      have hstarted : ∀ k ∈ (n.start w).1 :: rest, k.size < bound ∧ k.Sound := by
        intro k hk
        rcases List.mem_cons.mp hk with rfl | hk
        · rw [start_size]
          exact ⟨hsize, hlocal.sound⟩
        · exact hnodes k (by simp [hk])
      have hidsAfter : (((n.start w).1 :: rest).flatMap ids).Nodup := by
        rw [List.flatMap_cons, hlocal.ids, ← List.flatMap_cons]
        exact hids
      have hactive : (n.start w).1.header.active = true := by simp [Header.opened]
      have hafter := ih (n.start w).1 hstarted hidsAfter
        ⟨hactive, fun c hc => hmarks c (by simp [hc])⟩
      rw [walk_ready]
      exact neverRestarts_start_append hafter

end Update

theorem neverRestarts_update (m : Moment) (w : Surroundings) {n : Node} (hsound : n.Sound)
    (hids : n.ids.Nodup) : NeverRestarts (Effect.happenings (n.update m w).2) := by
  induction hsize : n.size using Nat.strongRecOn generalizing n with
  | ind size ih =>
  have hupdate : ∀ k : Node, k.size < n.size → k.Sound → k.ids.Nodup →
      NeverRestarts (Effect.happenings (k.update m w).2) :=
    fun k hk hkSound hkIds => ih k.size (hsize ▸ hk) hkSound hkIds rfl
  have hchildren : ∀ c ∈ n.children, c.size < n.size ∧ c.Sound :=
    fun c hc => ⟨size_lt_of_mem_children hc, hsound.children c hc⟩
  have hbelow := (nodup_below hids).2
  cases hlive : n.header.live with
  | false =>
      rw [update_of_not_live m w hlive]
      exact List.Pairwise.nil
  | true =>
    have horder := hsound.tidy hlive
    cases n with
    | leaf h a =>
        rw [update_leaf, if_pos (show h.live = true from hlive), happenings_writes]
        exact List.Pairwise.nil
    | sequence h nodes cursor =>
        rw [update_sequence m w h hlive]
        exact neverRestarts_walk_of_lt hupdate hchildren hbelow horder
    | parallel h nodes running =>
        obtain rfl : running = nodes.map (·.header.active) := horder
        rw [update_parallel m w h hlive, updateRunning_tidy]
        exact neverRestarts_advanceAll_of_lt hupdate hchildren hbelow
    | repeating h child running =>
        rcases child with _ | child
        · rw [update_vacant]
          exact List.Pairwise.nil
        obtain ⟨hchildSize, hchild⟩ := hchildren child (by simp [children])
        have hchildIds : child.ids.Nodup := by simpa [children] using hbelow
        cases running with
        | true =>
            rw [update_repeating_running m w h hlive]
            exact neverRestarts_visit_of_lt hupdate hchildSize hchild hchildIds
        | false =>
            have hlocal := local_start hchild (horder child rfl) w
            have hvisit := neverRestarts_visit_of_lt hupdate (n := (child.start w).1)
              (by rwa [start_size]) hlocal.sound (by rwa [hlocal.ids])
            rw [update_repeating_resting m w h hlive]
            exact neverRestarts_start_append hvisit

end Node

/-! ### Scripts and drivers -/

namespace Script

open Node

theorem Underway.neverRestarts_update {s : Script} (m : Moment) (w : Surroundings)
    (h : s.Underway) (hids : s.ids.Nodup) : NeverRestarts (Effect.happenings (s.update m w).2) := by
  obtain ⟨hsound, hstanding⟩ := h
  cases s with
  | tree root =>
      have hroot : root.Sound := hsound root (by simp [forest])
      exact Node.neverRestarts_update m w hroot (by simpa [ids, forest] using hids)
  | flat actions cursor =>
      obtain ⟨hflat, hmarks⟩ := hstanding
      have hactions : ∀ n ∈ actions.map alone, n.size < ((actions.map alone).map size).sum + 1 ∧
          n.Sound := fun n hn => ⟨size_lt_sum_of_mem hn, hsound n hn⟩
      have hwalk := neverRestarts_walk_of_lt
        (fun k _ hk hkIds => Node.neverRestarts_update m w hk hkIds) hactions hids
        ((marks_alone cursor actions).mpr hmarks)
      rw [(walk_alone m w hflat cursor).1] at hwalk
      exact hwalk

theorem eq_ended_of_mem_finish {s : Script} {h : Happening} (hmem : .event h ∈ s.finish.2) :
    ∃ id, h = .ended id := by
  cases s with
  | tree root => exact Node.eq_ended_of_mem_finish hmem
  | flat actions cursor =>
      obtain ⟨c, _, hmem⟩ := mem_finishAt hmem
      exact Node.eq_ended_of_mem_finish hmem

theorem started_not_mem_finish (s : Script) (id : Nat) : .event (.started id) ∉ s.finish.2 := by
  intro hmem
  obtain ⟨i, hi⟩ := eq_ended_of_mem_finish hmem
  cases hi

theorem neverRestarts_finish (s : Script) : NeverRestarts (Effect.happenings s.finish.2) :=
  neverRestarts_of_no_start fun id hmem => s.started_not_mem_finish id (mem_happenings.mp hmem)

end Script

/-- **No node restarts within a tick.** In one tick of a driver in any state that calls can bring about,
all that happens to a node is a start, an end, or a start followed by an end. -/
theorem one_window_per_tick (default : Option Script) (intentions : Intentions) (beats : List Beat)
    (m : Moment) (w : Surroundings) (id : Nat) :
    let driver := ((Session.fresh default intentions).run beats).driver
    (lifecycleOf id (Effect.happenings (driver.tick m w).2)).Sublist [.started id, .ended id] := by
  intro driver
  by_cases hrunning : driver.status = .running
  · obtain ⟨script, hscript, hunderway, hids⟩ := Session.underway_of_running hrunning
    cases hstop : script.hasStopped w with
    | true =>
        obtain ⟨hcourse, _⟩ := hunderway.finish (m := m) (w := w)
        have hunfolds := hcourse.unfolds hunderway.sound hids
        have hown := hunfolds.lifecycleOf_sublist script.neverRestarts_finish id
        have hclosing : lifecycleOf id
            (Effect.happenings [.event (if w.active then .finished else .stopped)]) = [] := by
          cases w.active <;> simp [Effect.happenings, Effect.happening?, lifecycleOf]
        rw [Driver.tick_of_hasStopped m w hrunning hscript hstop, Node.happenings_append,
          lifecycleOf, List.filter_append]
        rw [lifecycleOf] at hclosing
        rw [hclosing, List.append_nil]
        exact hown
    | false =>
        obtain ⟨hcourse, _⟩ := hunderway.update (m := m) (w := w)
        have hunfolds := hcourse.unfolds hunderway.sound hids
        rw [Driver.tick_of_not_hasStopped m w hrunning hscript hstop]
        exact hunfolds.lifecycleOf_sublist (hunderway.neverRestarts_update m w hids) id
  · rw [Driver.tick_of_not_running m w hrunning]
    exact List.nil_sublist _

end Choreo
