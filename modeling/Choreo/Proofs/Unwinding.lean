import Choreo.Proofs.Node.Bookkeeping
import Choreo.Proofs.Node.Dismissal
import Choreo.Proofs.Restarts

/-!
# Switching off in mid-run

A node that is switched off while it runs is ended by its parent in the parent's next update, and all
that runs below it is ended with it. This costs the parent nothing: a sequence goes on with its next
child in the same tick, and the other children of any parent have their turns as if nothing were
missing.
-/

namespace Choreo

namespace Node

variable {m : Moment} {w : Surroundings} {left right result : List Node} {n c : Node}
  {effects : List Effect}

/-! ### What an update calls -/

/-- The ways in which a parent calls one of its children. -/
inductive CalledOn (w : Surroundings) (c : Node) : Operation → Node → Prop
  | start : CalledOn w c .start c
  | update (hgoes : c.hasStopped w = false) : CalledOn w c .update c
  | restarted (hgoes : (c.start w).1.hasStopped w = false) : CalledOn w c .update (c.start w).1

variable {k : Node} {op op' : Operation}

theorem CalledOn.ids_eq (h : CalledOn w c op k) : k.ids = c.ids := by
  cases h with
  | start => rfl
  | update _ => rfl
  | restarted _ => exact start_eq ids ids_congr w c

theorem CalledOn.eq_of_off (h : CalledOn w c op k) (hoff : c.header.enabled = false) :
    op = .start ∧ k = c := by
  cases h with
  | start => exact ⟨rfl, rfl⟩
  | update hgoes =>
      rw [hasStopped_of_off w hoff] at hgoes
      cases hgoes
  | restarted hgoes =>
      rw [hasStopped_of_off w (by simp [Header.opened, hoff])] at hgoes
      cases hgoes

theorem calledOn_of_walkCalls {cursor : Cursor} {nodes : List Node}
    (h : WalkCalls w cursor nodes op k) :
    (∃ c ∈ nodes, CalledOn w c op k) ∧
      -- A running child is not started, which tells a child just started from one that waits.
      (cursor = .running 0 → ∀ c rest, nodes = c :: rest →
        (op = .update ∧ k = c ∧ c.hasStopped w = false) ∨ ∃ c ∈ rest, CalledOn w c op k) := by
  induction h with
  | @shift cursor rest _ _ n _ ih =>
      obtain ⟨⟨c, hc, hcall⟩, _⟩ := ih
      refine ⟨⟨c, by simp [hc], hcall⟩, ?_⟩
      intro hcursor
      cases cursor <;> cases hcursor
  | @update n rest hgoes =>
      refine ⟨⟨n, by simp, .update hgoes⟩, ?_⟩
      rintro - c rest ⟨rfl, rfl⟩
      exact Or.inl ⟨rfl, rfl, hgoes⟩
  | retire _ _ ih =>
      obtain ⟨⟨c, hc, hcall⟩, _⟩ := ih
      refine ⟨⟨c, by simp [hc], hcall⟩, ?_⟩
      rintro - d rest ⟨rfl, rfl⟩
      exact Or.inr ⟨c, hc, hcall⟩
  | start n rest => exact ⟨⟨n, by simp, .start⟩, by simp⟩
  | @started n rest _ _ _ ih =>
      refine ⟨?_, by simp⟩
      rcases ih.2 rfl _ _ rfl with ⟨rfl, rfl, hgoes⟩ | ⟨c, hc, hcall⟩
      · exact ⟨n, by simp, .restarted hgoes⟩
      · exact ⟨c, by simp [hc], hcall⟩

theorem calledOn_of_calls (h : Calls w (op, n) (op', k)) :
    ∃ c ∈ n.children, CalledOn w c op' k := by
  cases h with
  | startAll _ hc => exact ⟨k, hc, .start⟩
  | walk _ hwalk => exact (calledOn_of_walkCalls hwalk).1
  | updateRunning _ hc _ hgoes => exact ⟨k, List.mem_of_getElem? hc, .update hgoes⟩
  | resume _ hgoes => exact ⟨k, by simp [children], .update hgoes⟩
  | restart _ => exact ⟨k, by simp [children], .start⟩
  | @restarted _ c _ hgoes => exact ⟨c, by simp [children], .restarted hgoes⟩

theorem sublist_ids_of_reached {call call' : Operation × Node}
    (h : Relation.ReflTransGen (Calls w) call call') : call'.2.ids.Sublist call.2.ids := by
  induction h with
  | refl => exact List.Sublist.refl _
  | @tail middle last _ hlast ih =>
      obtain ⟨c, hc, hcall⟩ := calledOn_of_calls hlast
      refine List.Sublist.trans ?_ ih
      rw [hcall.ids_eq, Node.ids_eq middle.2, List.flatMap_def]
      exact (List.sublist_flatten_of_mem (List.mem_map_of_mem hc)).cons _

/-- An update of the parent calls nothing in the tree of a child that is switched off, except that it
may open the child itself. -/
theorem eq_of_reached_of_off {p : Node} (hids : p.ids.Nodup)
    (hchildren : p.children = left ++ c :: right) (hoff : c.header.enabled = false)
    (hreached : Relation.ReflTransGen (Calls w) (.update, p) (op, k)) (hk : k.id ∈ c.ids) :
    op = .start ∧ k = c := by
  obtain ⟨hself, hbelow⟩ := nodup_below hids
  rw [hchildren] at hbelow hself
  obtain ⟨_, _, hdisjoint⟩ := nodup_split hbelow
  rcases Relation.ReflTransGen.cases_head hreached with heq | ⟨⟨first, d⟩, hfirst, hrest⟩
  · obtain ⟨_, rfl⟩ := Prod.mk.inj heq
    exact absurd (mem_split.mpr (Or.inl hk)) hself
  obtain ⟨e, he, hcall⟩ := calledOn_of_calls hfirst
  have hmem : k.id ∈ e.ids := by
    rw [← hcall.ids_eq]
    exact (sublist_ids_of_reached hrest).subset k.id_mem_ids
  obtain rfl : e = c := by
    by_contra hne
    have hother : e ∈ left ++ right := by
      rw [hchildren] at he
      simpa [hne] using he
    exact hdisjoint k.id hk (List.mem_flatMap.mpr ⟨e, hother, hmem⟩)
  obtain ⟨rfl, rfl⟩ := hcall.eq_of_off hoff
  rcases Relation.ReflTransGen.cases_head hrest with heq | ⟨call, hcall, _⟩
  · obtain ⟨rfl, rfl⟩ := Prod.mk.inj heq
    exact ⟨rfl, rfl⟩
  · cases hcall with
    | @startAll h _ _ _ hlive _ =>
        have henabled : h.enabled = true := by
          simp only [Header.opened, Bool.and_eq_true] at hlive
          exact hlive.1
        have hoff : h.enabled = false := hoff
        rw [hoff] at henabled
        cases henabled

/-! ### What is told of the child -/

theorem count_ended_finish (hsound : n.Sound) (hids : n.ids.Nodup) (hk : k ∈ n.preorder)
    (hactive : k.header.active = true) :
    (Effect.happenings n.finish.2).count (.ended k.id) = 1 := by
  have hopen : n.header.active = true := by
    by_contra hrest
    rw [not_active_of_mem_preorder hsound (by simpa using hrest) hk] at hactive
    cases hactive
  -- The moment and the surroundings play no part in an end.
  have hproceeds := hsound.operable.finish (m := ⟨0, 0⟩) (w := {}) hopen
  have hunfolds := hproceeds.course.unfolds (by simpa using hsound) (by simpa using hids)
  have hbefore : k.id ∈ opened [n] := ⟨k, by simpa using hk, hactive, rfl⟩
  have hafter : opened [n.finish.1] = ∅ :=
    opened_of_rest (by simpa using hproceeds.sound) (by simp)
  have hstarted : (Effect.happenings n.finish.2).count (.started k.id) = 0 :=
    List.count_eq_zero.mpr fun hmem => n.started_not_mem_finish k.id (mem_happenings.mp hmem)
  have hcount := hunfolds.count_eq k.id
  rw [hafter, hstarted, if_pos hbefore, if_neg (by simp)] at hcount
  omega

theorem Turns.count_ended {nodes : List Node} {i : Nat} (h : Turns m w nodes effects result)
    (hsound : ∀ n ∈ nodes, n.Sound) (hi : i ∉ nodes.flatMap ids) :
    (Effect.happenings effects).count (.ended i) = 0 := by
  refine List.count_eq_zero.mpr fun hmem => ?_
  obtain ⟨hcourse, _⟩ := Script.course_of_turns h hsound
  obtain ⟨id, hid, hnode⟩ := hcourse.mem_ids _ hmem
  obtain rfl : i = id := Option.some.inj hnode
  exact hi hid

namespace Dismissed

variable {turn : Node × List Effect}

theorem closed (h : Dismissed c turn) (hc : c.Sound) :
    ∀ k ∈ turn.1.preorder, k.header.active = false := by
  intro k hk
  rcases h with rfl | ⟨hrest, rfl⟩
  · exact not_active_of_mem_preorder (local_finish hc).sound c.finish_not_active hk
  · exact not_active_of_mem_preorder hc hrest hk

theorem leaves_eq (h : Dismissed c turn) : turn.1.leaves = c.leaves := by
  rcases h with rfl | ⟨_, rfl⟩
  · exact leaves_finish c
  · rfl

theorem writes_eq (h : Dismissed c turn) : ∀ x ∈ Effect.writes turn.2, x = .velocity .zero := by
  intro x hx
  obtain ⟨e, he, heq⟩ := List.mem_filterMap.mp hx
  obtain rfl : e = .write x := by
    cases e with
    | event _ => cases heq
    | write y => exact congrArg _ (Option.some.inj heq)
  rcases h with rfl | ⟨_, rfl⟩
  · rcases mem_finish he with hwrite | ⟨id, hended⟩
    · exact Effect.write.inj hwrite
    · cases hended
  · simp at he

theorem count_ended (h : Dismissed c turn) (hc : c.Sound) (hids : c.ids.Nodup)
    (hk : k ∈ c.preorder) (hactive : k.header.active = true) :
    (Effect.happenings turn.2).count (.ended k.id) = 1 := by
  rcases h with rfl | ⟨hrest, rfl⟩
  · exact count_ended_finish hc hids hk hactive
  · rw [not_active_of_mem_preorder hc hrest hk] at hactive
    cases hactive

end Dismissed

/-! ### The numbers of a handled tree -/

theorem ids_unswitched (n : Node) : (n.retouch .unswitched).ids = n.ids :=
  ids_retouch (fun _ => rfl) n

theorem Handled.nodup {isOpen : Bool} (h : Handled isOpen n) : n.ids.Nodup := by
  induction h with
  | init w n =>
      rw [ids_init]
      exact List.nodup_range'
  | start w h ih => rwa [start_eq ids ids_congr w _]
  | update m w h ih =>
      obtain ⟨hsound, hactive⟩ := h.sound
      rwa [((hsound.operable.update (m := m) (w := w) hactive).isLocal).ids]
  | finish h ih => rwa [(local_finish h.sound.1).ids]
  | switch _ hsame ih => rwa [← ids_unswitched, hsame, ids_unswitched]

theorem Handled.switches {isOpen : Bool} (h : Handled isOpen n) (f : Header → Bool) :
    Handled isOpen (n.retouch { header := fun h => { h with enabled := f h } }) := by
  refine .switch h ?_
  rw [retouch_retouch]
  rfl

/-- What an update of a parent does to a child that is switched off: `c'` is the child after it, and
`told` is what the child has to tell. -/
structure Unwound (m : Moment) (w : Surroundings) (p : Node) (left : List Node) (c : Node)
    (right : List Node) (c' : Node) (told : List Effect) : Prop where
  /-- The other children have turns of their own before and behind. -/
  turns : ∃ left' right' before after, Turns m w left before left' ∧ Turns m w right after right' ∧
    (p.update m w).1.children = left' ++ c' :: right' ∧ (p.update m w).2 = before ++ told ++ after
  closed : ∀ k ∈ c'.preorder, k.header.active = false
  ended_once : ∀ k ∈ c.preorder, k.header.active = true →
    (Effect.happenings (p.update m w).2).count (.ended k.id) = 1
  uncalled : ∀ (op : Operation) (k : Node),
    Relation.ReflTransGen (Calls w) (.update, p) (op, k) → k.id ∈ c.ids → op = .start ∧ k = c
  progress : c'.leaves = c.leaves
  writes : ∀ x ∈ Effect.writes told, x = .velocity .zero
  finishes : ∀ h nodes cursor, p = .sequence h nodes cursor → c.header.active = true → right = [] →
    (p.update m w).1.isComplete = true ∧ (p.update m w).2 = c.finish.2
  goes_on : ∀ h nodes cursor, p = .sequence h nodes cursor → c.header.active = true →
    ∀ next rest, right = next :: rest →
      ∃ more, (p.update m w).2 = c.finish.2 ++ ((next.start w).2 ++ more)

theorem Dismisses.ended_once (h : Dismisses m w left c right result effects)
    (hsound : ∀ d ∈ left ++ c :: right, d.Sound) (hids : ((left ++ c :: right).flatMap ids).Nodup)
    (hk : k ∈ c.preorder) (hactive : k.header.active = true) :
    (Effect.happenings effects).count (.ended k.id) = 1 := by
  obtain ⟨hcIds, _, hdisjoint⟩ := nodup_split hids
  have hapart := hdisjoint k.id (List.mem_map_of_mem hk)
  rw [List.flatMap_append, List.mem_append, not_or] at hapart
  obtain ⟨hleft, hturn, hright⟩ := h
  have hbefore := hleft.count_ended (fun d hd => hsound d (by simp [hd])) hapart.1
  have hafter := hright.count_ended (fun d hd => hsound d (by simp [hd])) hapart.2
  have hown := hturn.count_ended (hsound c (by simp)) hcIds hk hactive
  rw [happenings_append, happenings_append, List.count_append, List.count_append, hbefore, hown,
    hafter]

/-- The child of a sequence that is active is the one that its cursor is at. -/
theorem cursor_of_active {h : Header} {cursor : Cursor}
    (hsound : (sequence h (left ++ c :: right) cursor).Sound)
    (hlive : (sequence h (left ++ c :: right) cursor).header.live = true)
    (hactive : c.header.active = true) : cursor = .running left.length := by
  have hmarks : cursor.Marks (left ++ c :: right) := hsound.tidy hlive
  have hindex := (hmarks.active_iff left.length).mp (by simp [hactive])
  cases cursor with
  | running index =>
      obtain rfl : index = left.length := by simpa [Cursor.active] using hindex
      rfl
  | _ => cases hindex

theorem unwound_of_off {p : Node} (m : Moment) (w : Surroundings) (hp : p.Sound) (hids : p.ids.Nodup)
    (hlive : p.header.live = true) (hchildren : p.children = left ++ c :: right)
    (hoff : c.header.enabled = false) :
    ∃ c' told, Unwound m w p left c right c' told := by
  have hsound : ∀ k ∈ left ++ c :: right, k.Sound := by
    rw [← hchildren]
    exact hp.children
  have hc : c.Sound := hsound c (by simp)
  have hbelow := (nodup_below hids).2
  rw [hchildren] at hbelow
  have hdismisses := dismisses_update (m := m) (w := w) hlive hp hchildren hoff
  have hended := fun k => hdismisses.ended_once (k := k) hsound hbelow
  generalize hresult : (p.update m w).1.children = result at hdismisses
  generalize htrace : (p.update m w).2 = effects at hdismisses
  obtain ⟨hleft, hturn, hright⟩ := hdismisses
  rename_i left' right' before after turn
  refine ⟨turn.1, turn.2, ⟨left', right', before, after, hleft, hright, hresult, htrace⟩,
    hturn.closed hc, hended, ?_, hturn.leaves_eq, hturn.writes_eq, ?_, ?_⟩
  · intro op k hreached hk
    exact eq_of_reached_of_off hids hchildren hoff hreached hk
  · rintro h nodes cursor rfl hactive rfl
    obtain rfl : nodes = left ++ [c] := hchildren
    obtain rfl := cursor_of_active hp hlive hactive
    obtain ⟨htold, hfinished⟩ := walk_of_off (m := m) (w := w) hoff left []
    rw [update_sequence m w h hlive]
    refine ⟨?_, ?_⟩
    · change (walk m w _ _).2.1.isFinished = true
      rw [hfinished]
      simp [walk, Cursor.isFinished]
    · rw [htold]
      simp [walk]
  · rintro h nodes cursor rfl hactive next rest rfl
    obtain rfl : nodes = left ++ c :: next :: rest := hchildren
    obtain rfl := cursor_of_active hp hlive hactive
    obtain ⟨htold, _⟩ := walk_of_off (m := m) (w := w) hoff left (next :: rest)
    rw [update_sequence m w h hlive]
    refine ⟨(walk m w (.running 0) ((next.start w).1 :: rest)).2.2, ?_⟩
    rw [htold, walk_ready]

end Node

open Node in
/-- **A node that is switched off in mid-run is unwound.** However a tree is handled, and whichever of
its nodes is updated in an update of the tree: if that node is live, a child of it that is switched off
is ended with all that runs below it, nothing in it is run any further, and the other children do not
have to wait for it. -/
theorem switched_off_child_unwinds {root p c : Node} {left right : List Node} (m : Moment)
    (w : Surroundings) (hroot : Handled true root)
    (hreached : Relation.ReflTransGen (Calls w) (.update, root) (.update, p))
    (hlive : p.header.live = true) (hchildren : p.children = left ++ c :: right)
    (hoff : c.header.enabled = false) :
    ∃ c' told, Unwound m w p left c right c' told := by
  obtain ⟨hsound, hactive⟩ := hroot.sound
  have hp : p.Sound := (sound_and_permitted_of_reached hreached hsound hactive).1
  have hids : p.ids.Nodup := (sublist_ids_of_reached hreached).nodup hroot.nodup
  exact unwound_of_off m w hp hids hlive hchildren hoff

open Node in
/-- An attack that is repeated for ever, and another behind it. When the repetition is switched off, it
ends with the attack below it, and the attack behind it starts. -/
theorem switched_off_child_unwinds_endless :
    let attack : Node := .leaf {} (.attack {})
    let root := (Node.sequence {} [.repeating {} (some attack) false, attack] (.ready 0)
      |>.init {} 0).1
    let running := ((root.start {}).1.update ⟨1, 1⟩ {}).1
    let dark := running.retouch { header := fun h => { h with enabled := h.id != 1 } }
    ∃ c next c' told, dark.children = [] ++ c :: [next] ∧
      c.preorder.map (·.header.active) = [true, true] ∧
      Unwound ⟨1, 1⟩ {} dark [] c [next] c' told ∧
      Effect.happenings (dark.update ⟨1, 1⟩ {}).2 = [.ended 2, .ended 1, .started 3] := by
  intro attack root running dark
  have hrunning : Handled true running := .update ⟨1, 1⟩ {} (.start {} (.init {} _))
  have hdark : Handled true dark := hrunning.switches _
  obtain ⟨c, next, hchildren, hoff⟩ : ∃ c next, dark.children = [] ++ c :: [next] ∧
      c.header.enabled = false ∧ c.preorder.map (·.header.active) = [true, true] :=
    ⟨_, _, rfl, rfl, rfl⟩
  obtain ⟨c', told, hunwound⟩ :=
    switched_off_child_unwinds ⟨1, 1⟩ {} hdark .refl rfl hchildren hoff.1
  exact ⟨c, next, c', told, hchildren, hoff.2, hunwound, rfl⟩

end Choreo
