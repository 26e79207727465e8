import Choreo.Proofs.Leaf.Progress
import Choreo.Proofs.Node.Numbering

/-!
# No progress is taken back

A composite asks a child whether it is over one tick late, and does not ask twice. It need not: between
its start and its end a node only moves on, whatever the moments and surroundings of its updates are, so
what has been over once is over for good.
-/

namespace Choreo

/-! ### Cursors -/

namespace Cursor

variable {c d e : Cursor}

/-- The second cursor stands at the first one or further on, and a finished sequence stays so. -/
structure Leads (c d : Cursor) : Prop where
  next_le : c.next ≤ d.next
  stays : c.isFinished = true → d = c

theorem leads_refl (c : Cursor) : c.Leads c := ⟨le_rfl, fun _ => rfl⟩

theorem Leads.trans (h : c.Leads d) (h' : d.Leads e) : c.Leads e := by
  refine ⟨h.next_le.trans h'.next_le, fun hfinished => ?_⟩
  obtain rfl := h.stays hfinished
  exact h'.stays hfinished

theorem next_shift (c : Cursor) : c.shift.next = c.next + 1 := by
  cases c <;> rfl

theorem Leads.shift (h : c.Leads d) : c.shift.Leads d.shift := by
  refine ⟨?_, fun hfinished => ?_⟩
  · rw [next_shift, next_shift]
    exact Nat.succ_le_succ h.next_le
  · rw [isFinished_shift] at hfinished
    rw [h.stays hfinished]

/-- A tick starts the children that come next and goes back to none. -/
theorem leads_walk (m : Moment) (w : Surroundings) (c : Cursor) (nodes : List Node) :
    c.Leads (Node.walk m w c nodes).2.1 := by
  induction c, nodes using Cursor.walkInduction with
  | nil c =>
      cases c with
      | ready next => exact ⟨le_rfl, by simp [isFinished]⟩
      | running index => exact leads_refl _
      | finished next => exact leads_refl _
  | finished next nodes =>
      rw [Node.walk]
      exact leads_refl _
  | shift c n rest ih =>
      rw [Node.walk_shift]
      exact ih.shift
  | running n rest ih =>
      rw [Node.walk_running]
      split
      · refine ⟨?_, by simp [isFinished]⟩
        rw [next_shift]
        exact Nat.succ_le_succ ih.next_le
      · exact leads_refl _
  | ready n rest ih =>
      rw [Node.walk_ready]
      have hrunning := ih (n.start w).1
      exact ⟨(Nat.zero_le _).trans hrunning.next_le, by simp [isFinished]⟩

end Cursor

/-! ### Children at once -/

/-- Of the children of a parallel, no other runs than has run before. -/
def Shrinks (before after : List Bool) : Prop :=
  List.Forall₂ (fun was is => is = true → was = true) before after

theorem shrinks_refl (flags : List Bool) : Shrinks flags flags := by
  induction flags with
  | nil => exact .nil
  | cons flag rest ih => exact .cons id ih

theorem Shrinks.trans {a b c : List Bool} (h : Shrinks a b) (h' : Shrinks b c) : Shrinks a c := by
  induction h generalizing c with
  | nil => exact h'
  | cons hflag _ ih =>
      cases h' with
      | cons hflag' hrest => exact .cons (fun hruns => hflag (hflag' hruns)) (ih hrest)

theorem Shrinks.all_not {before after : List Bool} (h : Shrinks before after)
    (hnone : before.all not = true) : after.all not = true := by
  induction h with
  | nil => rfl
  | cons hflag _ ih =>
      simp only [List.all_cons, Bool.and_eq_true, Bool.not_eq_eq_eq_not, Bool.not_true] at hnone ⊢
      refine ⟨Bool.eq_false_iff.mpr fun hruns => ?_, ih hnone.2⟩
      rw [hflag hruns] at hnone
      cases hnone.1

theorem shrinks_updateRunning (m : Moment) (w : Surroundings) (flags : List Bool)
    (nodes : List Node) : Shrinks flags (Node.updateRunning m w false flags nodes).2.1 := by
  induction flags generalizing nodes with
  | nil => simpa [Node.updateRunning] using shrinks_refl []
  | cons flag rest ih =>
      cases nodes with
      | nil => simpa [Node.updateRunning] using shrinks_refl (flag :: rest)
      | cons n nodes =>
          cases flag with
          | true =>
              rw [Node.updateRunning_running]
              exact .cons (fun _ => rfl) (ih nodes)
          | false =>
              rw [Node.updateRunning_resting]
              exact .cons id (ih nodes)

/-! ### Nodes -/

namespace Node

/-- What a run of updates makes of a node. -/
def played (n : Node) (run : List Context) : Node := run.foldl (fun n c => (n.update c.1 c.2).1) n

/-- A node in the course of its run. -/
structure Regular (n : Node) : Prop where
  live : n.header.live = true
  leaf : ∀ h a, n = leaf h a → a.Regular

/-- A node, and what it may have become since: no progress has been taken back. -/
inductive MovesOn : Node → Node → Prop
  | leaf {h : Header} {a b : Leaf} (step : a.MovesOn b) : MovesOn (leaf h a) (leaf h b)
  | sequence {h : Header} {nodes nodes' : List Node} {c d : Cursor} (step : c.Leads d) :
      MovesOn (sequence h nodes c) (sequence h nodes' d)
  | parallel {h : Header} {nodes nodes' : List Node} {running running' : List Bool}
      (step : Shrinks running running') :
      MovesOn (parallel h nodes running) (parallel h nodes' running')
  | repeating {h : Header} {child child' : Option Node} {running running' : Bool} :
      MovesOn (repeating h child running) (repeating h child' running')

theorem MovesOn.trans {n k l : Node} (h : n.MovesOn k) (h' : k.MovesOn l) : n.MovesOn l := by
  cases h with
  | leaf h => cases h' with | leaf h' => exact .leaf (h.trans h')
  | sequence h => cases h' with | sequence h' => exact .sequence (h.trans h')
  | parallel h => cases h' with | parallel h' => exact .parallel (h.trans h')
  | repeating => cases h' with | repeating => exact .repeating

theorem movesOn_refl {n : Node} (h : n.Regular) : n.MovesOn n := by
  cases n with
  | leaf hd a => exact .leaf (Leaf.movesOn_refl (h.leaf hd a rfl))
  | sequence _ _ c => exact .sequence c.leads_refl
  | parallel _ _ running => exact .parallel (shrinks_refl running)
  | repeating => exact .repeating

/-- What an update makes of a node in the course of its run. -/
structure Goes (n k : Node) : Prop where
  regular : k.Regular
  movesOn : n.MovesOn k
  isOver : n.isOver = true → k.isOver = true

theorem isOver_iff {n : Node} (h : n.Regular) : n.isOver = true ↔ n.isComplete = true := by
  rw [isOver, h.live]
  simp

theorem goes_update {n : Node} (h : n.Regular) (m : Moment) (w : Surroundings) :
    n.Goes (n.update m w).1 := by
  have hregular : (∀ hd a, (n.update m w).1 = leaf hd a → a.Regular) → (n.update m w).1.Regular :=
    fun hleaf => ⟨by rw [update_header]; exact h.live, hleaf⟩
  cases n with
  | leaf hd a =>
      have hlive : hd.live = true := h.live
      obtain ⟨hkept, hmoves, hover⟩ := Leaf.goes_update (h.leaf hd a rfl) m w
      rw [update_leaf, if_pos hlive] at hregular ⊢
      have hafter := hregular fun hd' b heq => by cases heq; exact hkept
      exact ⟨hafter, .leaf hmoves, fun hend => (isOver_iff hafter).mpr (hover ((isOver_iff h).mp hend))⟩
  | sequence hd nodes c =>
      have hlive : hd.live = true := h.live
      have hleads := Cursor.leads_walk m w c nodes
      rw [update_sequence m w hd hlive] at hregular ⊢
      have hafter := hregular fun hd' b heq => by cases heq
      refine ⟨hafter, .sequence hleads, fun hend => (isOver_iff hafter).mpr ?_⟩
      have hfinished : c.isFinished = true := (isOver_iff h).mp hend
      rw [isComplete, hleads.stays hfinished]
      exact hfinished
  | parallel hd nodes running =>
      have hlive : hd.live = true := h.live
      have hshrinks := shrinks_updateRunning m w running nodes
      rw [update_parallel m w hd hlive] at hregular ⊢
      have hafter := hregular fun hd' b heq => by cases heq
      exact ⟨hafter, .parallel hshrinks, fun hend =>
        (isOver_iff hafter).mpr (hshrinks.all_not ((isOver_iff h).mp hend))⟩
  | repeating hd child running =>
      have hlive : hd.live = true := h.live
      have hover : (repeating hd child running).isOver ≠ true := fun hend => by
        cases (isOver_iff h).mp hend
      have hstays : ∃ child' running', ((repeating hd child running).update m w).1 =
          repeating hd child' running' := by
        cases child with
        | none => exact ⟨_, _, by rw [update_vacant]⟩
        | some child =>
            cases running with
            | true => exact ⟨_, _, by rw [update_repeating_running m w hd hlive]⟩
            | false => exact ⟨_, _, by rw [update_repeating_resting m w hd hlive]⟩
      obtain ⟨child', running', hupdate⟩ := hstays
      rw [hupdate] at hregular ⊢
      exact ⟨hregular fun hd' b heq => (by cases heq), .repeating, fun hend => absurd hend hover⟩

/-- A live start of a node that a check has accepted. -/
theorem regular_start {n : Node} {w w' : Surroundings} {id : ℕ}
    (hlive : ((n.init w id).1.start w').1.header.live = true) :
    ((n.init w id).1.start w').1.Regular := by
  refine ⟨hlive, fun hd a heq => ?_⟩
  rw [start_header] at hlive
  cases n with
  | leaf h b =>
      rw [init] at hlive heq
      cases hinit : b.init w with
      | error fault =>
          rw [hinit] at hlive
          simp [checked, withHeader, header, Header.initialised, Header.opened] at hlive
      | ok c =>
          rw [hinit] at hlive heq
          have hopened : (h.initialised id none).opened.live = true := hlive
          change ((leaf (h.initialised id none) c).start w').1 = _ at heq
          rw [start_leaf w' _ hopened] at heq
          cases heq
          exact Leaf.regular_start hinit w'
  | sequence h nodes c =>
      rw [init, start] at heq
      cases heq
  | parallel h nodes running =>
      rw [init, start] at heq
      split at heq <;> cases heq
  | repeating h child running =>
      cases child <;> rw [init] at heq <;> cases heq

theorem goes_played {n : Node} (h : n.Regular) (run : List Context) : n.Goes (n.played run) := by
  induction run using List.reverseRecOn with
  | nil => exact ⟨h, movesOn_refl h, fun hover => hover⟩
  | append_singleton earlier c ih =>
      have hstep := goes_update ih.regular c.1 c.2
      rw [played, List.foldl_concat]
      exact ⟨hstep.regular, ih.movesOn.trans hstep.movesOn,
        fun hover => hstep.isOver (ih.isOver hover)⟩

end Node

/-- **Progress is not taken back.** Between the live start of an accepted node and its end, whatever the
moments and the surroundings of its updates are, a wait does not lose time, a move does not fall back,
a follower stays on its path and does not turn round, a barrage takes back no bullet, no child of a
parallel is taken up again, the cursor of a sequence goes back to none, and what is over stays over. -/
theorem progress_not_taken_back {n : Node} {w w' : Surroundings} {id : ℕ}
    (hlive : ((n.init w id).1.start w').1.header.live = true) (earlier later : List Context) :
    let before := ((n.init w id).1.start w').1.played earlier
    let after := ((n.init w id).1.start w').1.played (earlier ++ later)
    before.MovesOn after ∧ (before.isOver = true → after.isOver = true) := by
  intro before after
  have hbefore : ((n.init w id).1.start w').1.Goes before :=
    Node.goes_played (Node.regular_start hlive) earlier
  have hafter : before.Goes after := by
    have hsplit : after = before.played later := List.foldl_append
    rw [hsplit]
    exact Node.goes_played hbefore.regular later
  exact ⟨hafter.movesOn, hafter.isOver⟩

/-- A move that a step without duration completes, and that nothing takes up again. -/
theorem progress_not_taken_back_stride :
    let stride : Node := .leaf {} (.moveBy { vector := .right, speed := 1 })
    let started := ((stride.init {} 0).1.start {}).1
    let earlier : List Context := [(⟨0, 0.25⟩, {}), (⟨1, 0 / 0⟩, {})]
    let later : List Context := [(⟨2, -1⟩, {}), (⟨3, 0.25⟩, {})]
    started.header.live = true ∧ (started.played earlier).MovesOn (started.played (earlier ++ later)) ∧
      (started.played (earlier ++ later)).isOver = true := by
  intro stride started earlier later
  have hlive : started.header.live = true := by decide +kernel
  have hover : (started.played earlier).isOver = true := by decide +kernel
  obtain ⟨hmoves, hstays⟩ := progress_not_taken_back hlive earlier later
  exact ⟨hlive, hmoves, hstays hover⟩

end Choreo
