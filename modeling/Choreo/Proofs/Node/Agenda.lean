import Choreo.Proofs.Node.Bookkeeping

/-!
# The agenda of a sequence

A tick of a sequence is a list of turns, each of which has one child started, updated or ended. What the
turns are is seen from the children as they come up, and there is one update among them unless the list
of children is used up.
-/

namespace Choreo.Node

/-- What a sequence has one of its children do. -/
inductive Turn
  | start (place : Nat)
  | update (place : Nat)
  | finish (place : Nat)
  deriving DecidableEq

namespace Turn

/-- The same turn in a list to whose front one more child is put. -/
def shift : Turn → Turn
  | start place => start (place + 1)
  | update place => update (place + 1)
  | finish place => finish (place + 1)

def isUpdate : Turn → Bool
  | update _ => true
  | _ => false

/-- What an operation makes of the child at a place, and its effects. -/
def onPlace (f : Node → Node × List Effect) : Nat → List Node → List Node × List Effect
  | _, [] => ([], [])
  | 0, n :: rest => ((f n).1 :: rest, (f n).2)
  | place + 1, n :: rest => (n :: (onPlace f place rest).1, (onPlace f place rest).2)

def take (m : Moment) (w : Surroundings) : Turn → List Node → List Node × List Effect
  | start place => onPlace (·.start w) place
  | update place => onPlace (·.update m w) place
  | finish place => onPlace Node.finish place

/-- One turn after another. -/
def takeAll (m : Moment) (w : Surroundings) : List Turn → List Node → List Node × List Effect
  | [], nodes => (nodes, [])
  | t :: turns, nodes =>
    ((takeAll m w turns (t.take m w nodes).1).1,
      (t.take m w nodes).2 ++ (takeAll m w turns (t.take m w nodes).1).2)

theorem takeAll_shift (m : Moment) (w : Surroundings) (turns : List Turn) (n : Node)
    (rest : List Node) :
    takeAll m w (turns.map shift) (n :: rest) =
      (n :: (takeAll m w turns rest).1, (takeAll m w turns rest).2) := by
  induction turns generalizing rest with
  | nil => rfl
  | cons t turns ih =>
      have hturn : t.shift.take m w (n :: rest) = (n :: (t.take m w rest).1, (t.take m w rest).2) := by
        cases t <;> rfl
      rw [List.map_cons, takeAll, hturn, ih]
      rfl

theorem filter_shift (turns : List Turn) :
    (turns.map shift).filter isUpdate = (turns.filter isUpdate).map shift := by
  have hshift : isUpdate ∘ shift = isUpdate := by
    funext t
    cases t <;> rfl
  rw [List.filter_map, hshift]

end Turn

/-- The turns that a sequence gives in a tick: it retires the child that runs if that has stopped, starts
children until one does not stop at once, and updates the one that then runs. -/
def agenda (w : Surroundings) : Cursor → List Node → List Turn
  | .finished _, _ | _, [] => []
  | .ready (next + 1), _ :: rest => (agenda w (.ready next) rest).map .shift
  | .running (index + 1), _ :: rest => (agenda w (.running index) rest).map .shift
  | .ready 0, n :: rest =>
    .start 0 :: if (n.start w).1.hasStopped w then
      .finish 0 :: (agenda w (.ready 0) rest).map .shift else [.update 0]
  | .running 0, n :: rest =>
    if n.hasStopped w then .finish 0 :: (agenda w (.ready 0) rest).map .shift else [.update 0]

variable (m : Moment) (w : Surroundings)

theorem agenda_nil (cursor : Cursor) : agenda w cursor [] = [] := by
  cases cursor <;> simp [agenda]

theorem agenda_finished (next : Nat) (nodes : List Node) : agenda w (.finished next) nodes = [] := by
  cases nodes <;> simp [agenda]

theorem agenda_shift (cursor : Cursor) (n : Node) (rest : List Node) :
    agenda w cursor.shift (n :: rest) = (agenda w cursor rest).map .shift := by
  cases cursor with
  | finished next => simp [Cursor.shift, agenda_finished]
  | ready next => simp [Cursor.shift, agenda]
  | running index => simp [Cursor.shift, agenda]

theorem agenda_running (n : Node) (rest : List Node) :
    agenda w (.running 0) (n :: rest) =
      if n.hasStopped w then .finish 0 :: (agenda w (.ready 0) rest).map .shift else [.update 0] := by
  simp [agenda]

theorem agenda_ready (n : Node) (rest : List Node) :
    agenda w (.ready 0) (n :: rest) =
      .start 0 :: agenda w (.running 0) ((n.start w).1 :: rest) := by
  simp [agenda]

theorem walk_eq_takeAll (cursor : Cursor) (nodes : List Node) :
    ((walk m w cursor nodes).1, (walk m w cursor nodes).2.2) =
      Turn.takeAll m w (agenda w cursor nodes) nodes := by
  induction cursor, nodes using Cursor.walkInduction with
  | nil cursor =>
      rw [agenda_nil]
      cases cursor <;> simp [walk, Turn.takeAll]
  | finished next nodes =>
      rw [agenda_finished]
      simp [walk, Turn.takeAll]
  | shift cursor n rest ih =>
      rw [walk_shift, agenda_shift, Turn.takeAll_shift, ← ih]
  | running n rest ih =>
      rw [walk_running, agenda_running]
      cases hstop : n.hasStopped w with
      | true =>
          simp only [↓reduceIte, Turn.takeAll, Turn.take, Turn.onPlace, Turn.takeAll_shift, ← ih]
      | false => simp [Turn.takeAll, Turn.take, Turn.onPlace]
  | ready n rest ih =>
      have hrunning := ih (n.start w).1
      rw [walk_ready, agenda_ready, Turn.takeAll]
      simp only [Turn.take, Turn.onPlace, ← hrunning]

/-- There is one update in a tick, of the child that runs behind it, or none if no child does. -/
theorem updates_agenda {cursor : Cursor} {nodes : List Node} (hmarks : cursor.Marks nodes) :
    (agenda w cursor nodes).filter Turn.isUpdate =
        ((walk m w cursor nodes).2.1.active.map Turn.update).toList ∧
      ((walk m w cursor nodes).2.1.isFinished = false →
        (walk m w cursor nodes).2.1.active.isSome = true) := by
  induction cursor, nodes using Cursor.walkInduction with
  | nil cursor =>
      rw [agenda_nil]
      cases cursor <;> simp_all [walk, Cursor.active, Cursor.Marks, Cursor.isFinished]
  | finished next nodes =>
      rw [agenda_finished]
      simp [walk, Cursor.active, Cursor.isFinished]
  | shift cursor n rest ih =>
      obtain ⟨_, hmarks⟩ := (cursor.marks_shift n rest).mp hmarks
      obtain ⟨hupdates, hgoes⟩ := ih hmarks
      rw [walk_shift, agenda_shift, Turn.filter_shift, hupdates, Cursor.active_shift,
        Cursor.isFinished_shift]
      refine ⟨?_, by simpa using hgoes⟩
      cases (walk m w cursor rest).2.1.active <;> rfl
  | running n rest ih =>
      rw [walk_running, agenda_running]
      cases hstop : n.hasStopped w with
      | true =>
          obtain ⟨hupdates, hgoes⟩ := ih ((Cursor.marks_ready rest).mpr hmarks.2)
          simp only [↓reduceIte, Cursor.active_shift, Cursor.isFinished_shift]
          refine ⟨?_, by simpa using hgoes⟩
          rw [List.filter_cons_of_neg (by simp [Turn.isUpdate]), Turn.filter_shift, hupdates]
          cases (walk m w (.ready 0) rest).2.1.active <;> rfl
      | false => exact ⟨rfl, fun _ => rfl⟩
  | ready n rest ih =>
      rw [Cursor.marks_ready] at hmarks
      have hstarted : (n.start w).1.header.active = true := by simp [Header.opened]
      obtain ⟨hupdates, hgoes⟩ := ih (n.start w).1 ⟨hstarted, fun c hc => hmarks c (by simp [hc])⟩
      rw [walk_ready, agenda_ready, List.filter_cons_of_neg (by simp [Turn.isUpdate])]
      exact ⟨hupdates, hgoes⟩

/-- What a tick of a sequence does, told by the turns of its children. -/
structure Advances (m : Moment) (w : Surroundings) (cursor : Cursor) (nodes : List Node) : Prop where
  turns : ((walk m w cursor nodes).1, (walk m w cursor nodes).2.2) =
    Turn.takeAll m w (agenda w cursor nodes) nodes
  /-- Unless the sequence is over, one child is active, and it is the only one that was updated. -/
  one : (walk m w cursor nodes).2.1.isFinished = false → ∃ i,
    (agenda w cursor nodes).filter Turn.isUpdate = [.update i] ∧
      ∀ j : Nat, (walk m w cursor nodes).1[j]?.any (·.header.active) = true ↔ j = i
  none : (walk m w cursor nodes).2.1.isFinished = true →
    (agenda w cursor nodes).filter Turn.isUpdate = [] ∧
      ∀ c ∈ (walk m w cursor nodes).1, c.header.active = false

theorem advances {cursor : Cursor} {nodes : List Node} (hmarks : cursor.Marks nodes) :
    Advances m w cursor nodes := by
  obtain ⟨hupdates, hgoes⟩ := updates_agenda m w hmarks
  obtain ⟨_, hafter⟩ := turns_walk (m := m) (w := w) hmarks
  refine ⟨walk_eq_takeAll m w cursor nodes, fun hfinished => ?_, fun hfinished => ?_⟩
  · obtain ⟨i, hi⟩ := Option.isSome_iff_exists.mp (hgoes hfinished)
    refine ⟨i, by rw [hupdates, hi]; rfl, fun j => ?_⟩
    rw [hafter.active_iff, hi, Option.some.injEq, eq_comm]
  · refine ⟨?_, (hafter.next_eq hfinished).1⟩
    rw [hupdates]
    cases hcursor : (walk m w cursor nodes).2.1 with
    | finished next => rfl
    | _ => rw [hcursor] at hfinished; cases hfinished

end Choreo.Node
