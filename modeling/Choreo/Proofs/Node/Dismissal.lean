import Choreo.Proofs.Node.Siblings
import Choreo.Proofs.Node.Sound

/-!
# The turn of a child that is switched off

Whatever kind of composite its parent is, a child that is switched off is ended in its turn, and all
that runs below it with it; the other children have their turns before and behind. The progress of the
actions below stays as it is.
-/

namespace Choreo

namespace Node

variable {m : Moment} {w : Surroundings}

def leaf? : Node → Option Leaf
  | leaf _ a => some a
  | _ => none

/-- The actions in a tree with their progress, in pre-order. -/
def leaves (n : Node) : List Leaf := n.preorder.filterMap leaf?

theorem leaves_eq (n : Node) : n.leaves = n.leaf?.toList ++ n.children.flatMap leaves := by
  rw [leaves, preorder_eq, List.filterMap_cons, List.filterMap_flatMap]
  cases n.leaf? <;> rfl

/-! ### An end leaves the progress of every action as it is -/

/-- The child is left alone, or ended. -/
def Kept (before after : Node) : Prop := after = before ∨ after = before.finish.1

theorem kept_finishAt (cursor : Cursor) (nodes : List Node) :
    List.Forall₂ Kept nodes (finishAt cursor nodes).1 := by
  have hsame : ∀ nodes : List Node, List.Forall₂ Kept nodes nodes :=
    fun nodes => List.forall₂_same.mpr fun _ _ => Or.inl rfl
  induction nodes generalizing cursor with
  | nil => cases cursor <;> simp [finishAt]
  | cons n rest ih =>
      cases cursor using Cursor.headCases with
      | ready => simpa [finishAt] using hsame (n :: rest)
      | finished next => simpa [finishAt] using hsame (n :: rest)
      | running =>
          rw [finishAt_running]
          exact .cons (Or.inr rfl) (hsame rest)
      | shift cursor =>
          rw [finishAt_shift]
          exact .cons (Or.inl rfl) (ih cursor)

theorem kept_finishRunning (running : List Bool) (nodes : List Node) :
    List.Forall₂ Kept nodes (finishRunning running nodes).1 := by
  induction nodes generalizing running with
  | nil => cases running <;> simp [finishRunning]
  | cons n rest ih =>
      cases running with
      | nil =>
          simp only [finishRunning]
          exact List.forall₂_same.mpr fun _ _ => Or.inl rfl
      | cons flag running =>
          rw [finishRunning_cons]
          refine .cons ?_ (ih running)
          cases flag with
          | true => exact Or.inr rfl
          | false => exact Or.inl rfl

theorem leaves_of_kept {nodes nodes' : List Node} (h : List.Forall₂ Kept nodes nodes')
    (hfinish : ∀ n ∈ nodes, n.finish.1.leaves = n.leaves) :
    nodes'.flatMap leaves = nodes.flatMap leaves := by
  induction h with
  | nil => rfl
  | @cons n n' _ _ hn _ ih =>
      have hown : n'.leaves = n.leaves := by
        rcases hn with rfl | rfl
        · rfl
        · exact hfinish n (by simp)
      rw [List.flatMap_cons, List.flatMap_cons, hown, ih fun k hk => hfinish k (by simp [hk])]

theorem leaves_finish (n : Node) : n.finish.1.leaves = n.leaves := by
  induction n with
  | node n ih =>
    have hkept : ∀ {nodes : List Node}, List.Forall₂ Kept n.children nodes →
        nodes.flatMap leaves = n.children.flatMap leaves := fun h => leaves_of_kept h ih
    cases hactive : n.header.active with
    | false => rw [finish_of_not_active hactive]
    | true =>
      rw [leaves_eq, leaves_eq n]
      cases hlive : n.header.live with
      | false =>
          rw [finish_of_not_live hactive hlive]
          cases n <;> rfl
      | true =>
        cases n with
        | leaf h a => rw [finish_leaf h hactive hlive]; rfl
        | sequence h nodes cursor =>
            rw [finish_sequence h hactive hlive]
            exact hkept (kept_finishAt cursor nodes)
        | parallel h nodes running =>
            rw [finish_parallel h hactive hlive]
            exact hkept (kept_finishRunning running nodes)
        | repeating h child running =>
            rcases child with _ | child
            · rw [finish_vacant h hactive]
              rfl
            cases running with
            | true =>
                rw [finish_repeating_running h hactive hlive]
                exact hkept (.cons (Or.inr rfl) .nil)
            | false =>
                rw [finish_repeating_resting h hactive]
                rfl

/-! ### The turn of a child that is switched off -/

/-- A child that is switched off is ended; or, where it is at rest and its turn comes, it is opened and
closed again, and nothing else is done with it. -/
def Dismissed (c : Node) (turn : Node × List Effect) : Prop :=
  turn = c.finish ∨
    c.header.active = false ∧ turn = (c, [.event (.started c.id), .event (.ended c.id)])

/-- The turns of a list of children, told apart by whether they come before the turn of a child that is
switched off or behind it. -/
inductive Dismisses (m : Moment) (w : Surroundings) (left : List Node) (c : Node)
    (right : List Node) : List Node → List Effect → Prop
  | intro {left' right' : List Node} {before after : List Effect} {turn : Node × List Effect}
      (hleft : Turns m w left before left') (hturn : Dismissed c turn)
      (hright : Turns m w right after right') :
      Dismisses m w left c right (left' ++ turn.1 :: right') (before ++ turn.2 ++ after)

variable {left right result : List Node} {n c : Node} {effects first : List Effect}

theorem Dismisses.prepend {middle : List Node}
    (hfirst : ∀ {before left'}, Turns m w middle before left' → Turns m w left (first ++ before) left')
    (h : Dismisses m w middle c right result effects) :
    Dismisses m w left c right result (first ++ effects) := by
  obtain ⟨hleft, hturn, hright⟩ := h
  simpa [List.append_assoc] using Dismisses.intro (hfirst hleft) hturn hright

theorem Dismisses.skip (h : Dismisses m w left c right result effects) :
    Dismisses m w (n :: left) c right (n :: result) effects := by
  obtain ⟨hleft, hturn, hright⟩ := h
  exact .intro hleft.cons hturn hright

theorem Dismisses.of_rest (hrest : c.header.active = false) (hleft : Turns m w left effects result) :
    Dismisses m w left c right (result ++ c :: right) effects := by
  have hturn : Dismissed c (c, []) := Or.inl (finish_of_not_active hrest).symm
  simpa using Dismisses.intro hleft hturn (.done right)

theorem hasStopped_of_off (w : Surroundings) (hoff : c.header.enabled = false) :
    c.hasStopped w = true := by
  simp [hasStopped, hoff]

theorem start_of_off (w : Surroundings) (hoff : c.header.enabled = false) :
    c.start w = (c.withHeader c.header.opened, [.event (.started c.id)]) :=
  start_of_not_live w (by simp [Header.opened, hoff])

/-- To open and close a child that is switched off leaves it as it was. -/
theorem finish_start_of_off (w : Surroundings) (hoff : c.header.enabled = false)
    (hrest : c.header.active = false) (hlive : c.header.live = false) :
    (c.start w).1.finish = (c, [.event (.ended c.id)]) := by
  have hheader : c.header.opened.closed = c.header := by
    cases hh : c.header with
    | mk label enabled id fault active live =>
        rw [hh] at hrest hlive
        obtain rfl : active = false := hrest
        obtain rfl : live = false := hlive
        rfl
  rw [start_of_off w hoff, finish_of_not_live (by simp [Header.opened]) (by simp [Header.opened, hoff]),
    withHeader_header, hheader]
  cases c <;> rfl

theorem dismisses_start (hoff : c.header.enabled = false) (hrest : c.header.active = false)
    (hlive : c.header.live = false) (hright : Turns m w right effects result) :
    Dismisses m w [] c right ((c.start w).1.finish.1 :: result)
      ((c.start w).2 ++ ((c.start w).1.finish.2 ++ effects)) := by
  rw [finish_start_of_off w hoff hrest hlive, start_of_off w hoff]
  exact .intro (.done []) (Or.inr ⟨hrest, rfl⟩) hright

theorem dismisses_walk (hoff : c.header.enabled = false)
    (hdead : c.header.active = false → c.header.live = false) {cursor : Cursor}
    (hmarks : cursor.Marks (left ++ c :: right)) :
    Dismisses m w left c right (walk m w cursor (left ++ c :: right)).1
      (walk m w cursor (left ++ c :: right)).2.2 := by
  induction left generalizing cursor with
  | nil =>
      rw [List.nil_append] at hmarks ⊢
      cases cursor using Cursor.headCases with
      | finished next =>
          have hrest : c.header.active = false := hmarks.2 c (by simp)
          simpa [walk] using Dismisses.of_rest hrest (.done [])
      | shift cursor =>
          obtain ⟨hrest, hmarks⟩ := (cursor.marks_shift c right).mp hmarks
          have hturns := (turns_walk (m := m) (w := w) hmarks).1
          rw [walk_shift]
          exact .intro (.done []) (Or.inl (finish_of_not_active hrest).symm) hturns
      | running =>
          have hturns := (turns_walk (m := m) (w := w) ((Cursor.marks_ready right).mpr hmarks.2)).1
          rw [walk_running, if_pos (hasStopped_of_off w hoff)]
          exact .intro (.done []) (Or.inl rfl) hturns
      | ready =>
          rw [Cursor.marks_ready] at hmarks
          have hrest : c.header.active = false := hmarks c (by simp)
          have hready := (Cursor.marks_ready right).mpr fun k hk => hmarks k (by simp [hk])
          have hturns := (turns_walk (m := m) (w := w) hready).1
          have hstop : (c.start w).1.hasStopped w = true :=
            hasStopped_of_off w (by simp [Header.opened, hoff])
          rw [walk_ready, walk_running, if_pos hstop]
          exact dismisses_start hoff hrest (hdead hrest) hturns
  | cons n rest ih =>
      have hrunning : ∀ k : Node, k.header.active = true →
          (∀ d ∈ rest ++ c :: right, d.header.active = false) →
          Dismisses m w (k :: rest) c right (walk m w (.running 0) (k :: (rest ++ c :: right))).1
            (walk m w (.running 0) (k :: (rest ++ c :: right))).2.2 := by
        intro k hk hrest
        rw [walk_running]
        split
        · have hlater := ih ((Cursor.marks_ready _).mpr hrest)
          exact hlater.skip.prepend fun hturns => .finishHead hk hturns
        · next hgoes =>
          have hturns : Turns m w (k :: rest) ((k.update m w).2 ++ []) ((k.update m w).1 :: rest) :=
            .updateHead hk (by simpa using hgoes) (.done _)
          rw [List.append_nil] at hturns
          exact .of_rest (hrest c (by simp)) hturns
      rw [List.cons_append] at hmarks ⊢
      cases cursor using Cursor.headCases with
      | finished next =>
          have hrest : c.header.active = false := hmarks.2 c (by simp)
          simpa [walk] using Dismisses.of_rest hrest (.done (n :: rest))
      | shift cursor =>
          obtain ⟨_, hmarks⟩ := (cursor.marks_shift n _).mp hmarks
          rw [walk_shift]
          exact (ih hmarks).skip
      | running => exact hrunning n hmarks.1 hmarks.2
      | ready =>
          rw [Cursor.marks_ready] at hmarks
          have hstarted : (n.start w).1.header.active = true := by simp [Header.opened]
          have hlater := hrunning (n.start w).1 hstarted fun d hd => hmarks d (by simp [hd])
          rw [walk_ready]
          exact hlater.prepend fun hturns => .startHead (hmarks n (by simp)) hturns

theorem advance_of_off (hoff : c.header.enabled = false) : c.advance m w = c.finish := by
  cases hactive : c.header.active with
  | false => rw [advance_of_not_active m w hactive, finish_of_not_active hactive]
  | true => rw [advance_of_active m w hactive, visit_of_hasStopped m w (hasStopped_of_off w hoff)]

theorem turns_advance (nodes : List Node) :
    Turns m w nodes (nodes.flatMap fun n => (n.advance m w).2)
      (nodes.map fun n => (n.advance m w).1) := by
  have hturns := (turns_updateRunning (m := m) (w := w) nodes).1
  rwa [updateRunning_tidy] at hturns

/-- A tick of a live composite gives a child that is switched off this turn, whatever kind of composite
it is. -/
theorem dismisses_update {p : Node} (hlive : p.header.live = true) (hp : p.Sound)
    (hchildren : p.children = left ++ c :: right) (hoff : c.header.enabled = false) :
    Dismisses m w left c right (p.update m w).1.children (p.update m w).2 := by
  have hc : c.Sound := hp.children c (by simp [hchildren])
  have hdead : c.header.active = false → c.header.live = false := hc.live_of_not_active
  have htidy := hp.tidy hlive
  cases p with
  | leaf h a => simp [children] at hchildren
  | sequence h nodes cursor =>
      obtain rfl : nodes = left ++ c :: right := hchildren
      rw [update_sequence m w h hlive]
      exact dismisses_walk hoff hdead htidy
  | parallel h nodes running =>
      obtain rfl : nodes = left ++ c :: right := hchildren
      obtain rfl : running = (left ++ c :: right).map (·.header.active) := htidy
      rw [update_parallel m w h hlive, updateRunning_tidy]
      simp only [children, List.map_append, List.map_cons, List.flatMap_append, List.flatMap_cons,
        advance_of_off hoff]
      rw [← List.append_assoc]
      exact .intro (turns_advance left) (Or.inl rfl) (turns_advance right)
  | repeating h child running =>
      have hchild : child.toList = left ++ c :: right := hchildren
      obtain ⟨rfl, rfl, rfl⟩ : child = some c ∧ left = [] ∧ right = [] := by
        cases child <;> cases left <;> simp_all
      cases running with
      | true =>
          rw [update_repeating_running m w h hlive, visit_of_hasStopped m w (hasStopped_of_off w hoff)]
          simpa [children] using Dismisses.intro (m := m) (w := w) (.done []) (Or.inl rfl) (.done [])
      | false =>
          have hrest : c.header.active = false := htidy c rfl
          have hstop : (c.start w).1.hasStopped w = true :=
            hasStopped_of_off w (by simp [Header.opened, hoff])
          rw [update_repeating_resting m w h hlive, visit_of_hasStopped m w hstop]
          simpa [children] using
            dismisses_start (m := m) (w := w) hoff hrest (hdead hrest) (.done [])

/-- A sequence whose running child is switched off ends it and goes on from there. -/
theorem walk_of_off (hoff : c.header.enabled = false) (left right : List Node) :
    (walk m w (.running left.length) (left ++ c :: right)).2.2 =
        c.finish.2 ++ (walk m w (.ready 0) right).2.2 ∧
      (walk m w (.running left.length) (left ++ c :: right)).2.1.isFinished =
        (walk m w (.ready 0) right).2.1.isFinished := by
  induction left with
  | nil =>
      rw [List.length_nil, List.nil_append, walk_running, if_pos (hasStopped_of_off w hoff)]
      exact ⟨rfl, Cursor.isFinished_shift _⟩
  | cons n rest ih =>
      rw [List.length_cons, List.cons_append]
      change (walk m w (Cursor.running rest.length).shift _).2.2 = _ ∧
        (walk m w (Cursor.running rest.length).shift _).2.1.isFinished = _
      rw [walk_shift, Cursor.isFinished_shift]
      exact ih

end Node

end Choreo
