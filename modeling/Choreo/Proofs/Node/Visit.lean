import Choreo.Proofs.Node.Children

/-!
# Visiting a child

All three composites do the same with a child whose turn it is: they end it if it has stopped, and
else update it. `visit` is that one step, and every update of a composite is here written with it: a
sequence visits the child under its cursor, a parallel each child that it marks as running, and a
repeating node its only one. A child that comes up in the tick of its own start is started first and
then visited like any other, which is what `updateFrom_fresh` says.
-/

namespace Choreo

/-- Enabled and without fault: live from the start on. -/
def Header.able (h : Header) : Bool := h.enabled && h.fault.isNone

/-- The node takes part in the run. -/
structure Header.Going (h : Header) : Prop where
  enabled : h.enabled = true
  fault : h.fault = none
  live : h.live = true

theorem Header.going_opened {h : Header} (hable : h.able = true) : h.opened.Going := by
  have hable' := hable
  rw [able, Bool.and_eq_true] at hable'
  obtain ⟨henabled, hfault⟩ := hable'
  exact ⟨henabled, Option.isNone_iff_eq_none.mp hfault, hable⟩

/-- A cursor stands at the head of a list, or else where another stands in the tail, unless it has left
the list. -/
@[elab_as_elim]
theorem Cursor.headCases {motive : Cursor → Prop} (ready : motive (.ready 0))
    (running : motive (.running 0)) (finished : ∀ next, motive (.finished next))
    (shift : ∀ cursor : Cursor, motive cursor.shift) (cursor : Cursor) : motive cursor := by
  cases cursor with
  | ready next =>
      cases next with
      | zero => exact ready
      | succ next => exact shift (.ready next)
  | running index =>
      cases index with
      | zero => exact running
      | succ index => exact shift (.running index)
  | finished next => exact finished next

/-- The way of a sequence through its children: it looks past those before the cursor, a child that
runs leads on to the next, and a child is started in order to run. -/
@[elab_as_elim]
theorem Cursor.walkInduction {motive : Cursor → List Node → Prop}
    (nil : ∀ cursor, motive cursor []) (finished : ∀ next nodes, motive (.finished next) nodes)
    (shift : ∀ (cursor : Cursor) n rest, motive cursor rest → motive cursor.shift (n :: rest))
    (running : ∀ n rest, motive (.ready 0) rest → motive (.running 0) (n :: rest))
    (ready : ∀ n rest, (∀ k, motive (.running 0) (k :: rest)) → motive (.ready 0) (n :: rest))
    (cursor : Cursor) (nodes : List Node) : motive cursor nodes := by
  induction nodes generalizing cursor with
  | nil => exact nil cursor
  | cons n rest ih =>
      have hrunning : ∀ k, motive (.running 0) (k :: rest) := fun k => running k rest (ih (.ready 0))
      cases cursor using Cursor.headCases with
      | ready => exact ready n rest hrunning
      | running => exact hrunning n
      | finished next => exact finished next _
      | shift cursor => exact shift cursor n rest (ih cursor)

namespace Node

variable (m : Moment) (w : Surroundings)

theorem hasStopped_of_going {n : Node} (h : n.header.Going) :
    n.hasStopped w = (!w.active || n.isComplete) := by
  simp [hasStopped, isOver, h.enabled, h.fault, h.live]

/-- The child after its turn, whether it goes on running, and the effects. -/
def visit (n : Node) : Node × Bool × List Effect :=
  if n.hasStopped w then (n.finish.1, false, n.finish.2)
  else ((n.update m w).1, true, (n.update m w).2)

theorem visit_of_hasStopped {n : Node} (h : n.hasStopped w = true) :
    n.visit m w = (n.finish.1, false, n.finish.2) := by
  rw [visit, if_pos h]

theorem visit_of_not_hasStopped {n : Node} (h : n.hasStopped w = false) :
    n.visit m w = ((n.update m w).1, true, (n.update m w).2) := by
  rw [visit, if_neg (by simp [h])]

/-! ### Starting -/

section Starting

attribute [local simp] start startAll

theorem startAll_eq (nodes : List Node) :
    startAll w nodes = (nodes.map fun n => (n.start w).1, nodes.flatMap fun n => (n.start w).2) := by
  induction nodes with
  | nil => rfl
  | cons n rest ih => simp [ih]

theorem start_of_not_live {n : Node} (hlive : n.header.opened.live = false) :
    n.start w = (n.withHeader n.header.opened, [.event (.started n.id)]) := by
  cases n <;> simp_all [header, withHeader, id]

section Opened

variable (h : Header) (hlive : h.opened.live = true)
include hlive

theorem start_leaf (a : Leaf) :
    (leaf h a).start w =
      (leaf h.opened (a.start w).1, .event (.started h.id) :: (a.start w).2.map .write) := by
  simp [hlive]

theorem start_sequence (nodes : List Node) (cursor : Cursor) :
    (sequence h nodes cursor).start w =
      (sequence h.opened nodes (.ready 0), [.event (.started h.id)]) := by
  simp [hlive]

theorem start_parallel (nodes : List Node) (running : List Bool) :
    (parallel h nodes running).start w =
      (parallel h.opened (nodes.map fun n => (n.start w).1) (nodes.map fun _ => true),
        .event (.started h.id) :: nodes.flatMap fun n => (n.start w).2) := by
  simp only [start, hlive, startAll_eq, ↓reduceIte, List.map_map]
  rfl

theorem start_repeating (child : Option Node) (running : Bool) :
    (repeating h child running).start w =
      (repeating h.opened child false, [.event (.started h.id)]) := by
  simp [hlive]

end Opened

@[simp]
theorem start_header (n : Node) : (n.start w).1.header = n.header.opened := by
  cases n <;> rw [start] <;> first | rfl | split <;> rfl

end Starting

/-! ### Updating -/

section Updating

attribute [local simp] update updateFrom walk updateRunning

/-- An update that takes a start into account is an update of the started node. -/
theorem updateFrom_fresh (n : Node) :
    n.updateFrom m w true = (n.start w).1.updateFrom m w false := by
  induction n with
  | node n ih =>
    cases n with
    | leaf h a =>
        by_cases hlive : h.opened.live = true <;> simp [start, hlive]
    | sequence h nodes cursor =>
        by_cases hlive : h.opened.live = true <;> simp [start, hlive]
    | parallel h nodes running =>
        have hnodes : updateRunning m w true (nodes.map fun _ => true) nodes =
            updateRunning m w false ((startAll w nodes).1.map fun _ => true)
              (startAll w nodes).1 := by
          rw [startAll_eq]
          simp only [children] at ih
          induction nodes with
          | nil => rfl
          | cons n rest ihRest =>
              have hn := ih n (by simp)
              have hrest := ihRest fun c hc => ih c (by simp [hc])
              simp only [List.map_cons, updateRunning, ↓reduceIte, Bool.false_eq_true, hn]
              rw [hrest]
        by_cases hlive : h.opened.live = true <;> simp [start, hlive, hnodes, -List.map_const']
    | repeating h child running =>
        cases child <;> by_cases hlive : h.opened.live = true <;> simp [start, hlive]

theorem update_leaf (h : Header) (a : Leaf) :
    (leaf h a).update m w =
      if h.live then (leaf h (a.update m w).1, (a.update m w).2.map .write) else (leaf h a, []) := by
  by_cases hlive : h.live = true <;> simp [hlive]

theorem update_of_not_live {n : Node} (hlive : n.header.live = false) :
    n.update m w = (n, []) := by
  cases n with
  | repeating h child running => cases child <;> simp_all [header]
  | _ => simp_all [header]

theorem update_sequence (h : Header) (hlive : h.live = true) (nodes : List Node)
    (cursor : Cursor) :
    (sequence h nodes cursor).update m w =
      (sequence h (walk m w cursor nodes).1 (walk m w cursor nodes).2.1,
        (walk m w cursor nodes).2.2) := by
  simp [hlive]

theorem update_parallel (h : Header) (hlive : h.live = true) (nodes : List Node)
    (running : List Bool) :
    (parallel h nodes running).update m w =
      (parallel h (updateRunning m w false running nodes).1
          (updateRunning m w false running nodes).2.1,
        (updateRunning m w false running nodes).2.2) := by
  simp [hlive]

theorem update_vacant (h : Header) (running : Bool) :
    (repeating h none running).update m w = (repeating h none running, []) := by
  simp

theorem update_repeating_running (h : Header) (hlive : h.live = true) (child : Node) :
    (repeating h (some child) true).update m w =
      (repeating h (some (child.visit m w).1) (child.visit m w).2.1, (child.visit m w).2.2) := by
  by_cases hstop : child.hasStopped w = true <;>
    simp [visit, hlive, hstop]

theorem update_repeating_resting (h : Header) (hlive : h.live = true) (child : Node) :
    (repeating h (some child) false).update m w =
      (repeating h (some ((child.start w).1.visit m w).1) ((child.start w).1.visit m w).2.1,
        (child.start w).2 ++ ((child.start w).1.visit m w).2.2) := by
  by_cases hstop : (child.start w).1.hasStopped w = true <;>
    simp [updateFrom_fresh, visit, hlive, hstop]

theorem walk_shift (cursor : Cursor) (n : Node) (rest : List Node) :
    walk m w cursor.shift (n :: rest) =
      (n :: (walk m w cursor rest).1, (walk m w cursor rest).2.1.shift,
        (walk m w cursor rest).2.2) := by
  cases cursor <;> simp [Cursor.shift]

theorem walk_running (n : Node) (rest : List Node) :
    walk m w (.running 0) (n :: rest) =
      if n.hasStopped w then
        (n.finish.1 :: (walk m w (.ready 0) rest).1, (walk m w (.ready 0) rest).2.1.shift,
          n.finish.2 ++ (walk m w (.ready 0) rest).2.2)
      else ((n.update m w).1 :: rest, .running 0, (n.update m w).2) := by
  by_cases hstop : n.hasStopped w = true <;> simp [hstop]

/-- The next child is started, and then treated like one that runs already. -/
theorem walk_ready (n : Node) (rest : List Node) :
    walk m w (.ready 0) (n :: rest) =
      ((walk m w (.running 0) ((n.start w).1 :: rest)).1,
        (walk m w (.running 0) ((n.start w).1 :: rest)).2.1,
        (n.start w).2 ++ (walk m w (.running 0) ((n.start w).1 :: rest)).2.2) := by
  by_cases hstop : (n.start w).1.hasStopped w = true <;>
    simp [updateFrom_fresh, hstop]

theorem updateRunning_running (running : List Bool) (n : Node) (rest : List Node) :
    updateRunning m w false (true :: running) (n :: rest) =
      ((n.visit m w).1 :: (updateRunning m w false running rest).1,
        (n.visit m w).2.1 :: (updateRunning m w false running rest).2.1,
        (n.visit m w).2.2 ++ (updateRunning m w false running rest).2.2) := by
  by_cases hstop : n.hasStopped w = true <;> simp [visit, hstop]

theorem updateRunning_resting (running : List Bool) (n : Node) (rest : List Node) :
    updateRunning m w false (false :: running) (n :: rest) =
      (n :: (updateRunning m w false running rest).1,
        false :: (updateRunning m w false running rest).2.1,
        (updateRunning m w false running rest).2.2) := by
  simp

end Updating

/-! ### Ending -/

section Ending

attribute [local simp] finish finishAt finishRunning

theorem finish_of_not_active {n : Node} (hactive : n.header.active = false) :
    n.finish = (n, []) := by
  cases n with
  | repeating h child running => cases child <;> simp_all [header]
  | _ => simp_all [header]

theorem finish_of_not_live {n : Node} (hactive : n.header.active = true)
    (hlive : n.header.live = false) :
    n.finish = (n.withHeader n.header.closed, [.event (.ended n.id)]) := by
  cases n with
  | repeating h child running =>
      cases child <;> simp_all [header, withHeader, id]
  | _ => simp_all [header, withHeader, id]

section Live

variable (h : Header) (hactive : h.active = true) (hlive : h.live = true)
include hactive

theorem finish_vacant (running : Bool) :
    (repeating h none running).finish =
      (repeating h.closed none running, [.event (.ended h.id)]) := by
  simp [hactive]

theorem finish_repeating_resting (child : Node) :
    (repeating h (some child) false).finish =
      (repeating h.closed (some child) false, [.event (.ended h.id)]) := by
  simp [hactive]

include hlive

theorem finish_leaf (a : Leaf) :
    (leaf h a).finish = (leaf h.closed a, a.finish.map .write ++ [.event (.ended h.id)]) := by
  simp [hactive, hlive]

theorem finish_sequence (nodes : List Node) (cursor : Cursor) :
    (sequence h nodes cursor).finish =
      (sequence h.closed (finishAt cursor nodes).1 cursor.halt,
        (finishAt cursor nodes).2 ++ [.event (.ended h.id)]) := by
  simp [hactive, hlive]

theorem finish_parallel (nodes : List Node) (running : List Bool) :
    (parallel h nodes running).finish =
      (parallel h.closed (finishRunning running nodes).1 (running.map fun _ => false),
        (finishRunning running nodes).2 ++ [.event (.ended h.id)]) := by
  simp [hactive, hlive]

theorem finish_repeating_running (child : Node) :
    (repeating h (some child) true).finish =
      (repeating h.closed (some child.finish.1) false,
        child.finish.2 ++ [.event (.ended h.id)]) := by
  simp [hactive, hlive]

end Live

theorem finishAt_shift (cursor : Cursor) (n : Node) (rest : List Node) :
    finishAt cursor.shift (n :: rest) =
      (n :: (finishAt cursor rest).1, (finishAt cursor rest).2) := by
  cases cursor <;> simp [Cursor.shift]

theorem finishAt_running (n : Node) (rest : List Node) :
    finishAt (.running 0) (n :: rest) = (n.finish.1 :: rest, n.finish.2) := by
  simp

theorem finishRunning_cons (flag : Bool) (running : List Bool) (n : Node) (rest : List Node) :
    finishRunning (flag :: running) (n :: rest) =
      ((if flag then n.finish.1 else n) :: (finishRunning running rest).1,
        (if flag then n.finish.2 else []) ++ (finishRunning running rest).2) := by
  cases flag <;> simp

end Ending

@[simp]
theorem finish_header {n : Node} (hactive : n.header.active = true) :
    n.finish.1.header = n.header.closed := by
  cases hlive : n.header.live with
  | false => rw [finish_of_not_live hactive hlive]; cases n <;> rfl
  | true =>
    cases n with
    | leaf h a => rw [finish_leaf h hactive hlive]; rfl
    | sequence h nodes cursor => rw [finish_sequence h hactive hlive]; rfl
    | parallel h nodes running => rw [finish_parallel h hactive hlive]; rfl
    | repeating h child running =>
        cases child with
        | none => rw [finish_vacant h hactive]; rfl
        | some child =>
            cases running with
            | true => rw [finish_repeating_running h hactive hlive]; rfl
            | false => rw [finish_repeating_resting h hactive]; rfl

@[simp]
theorem finish_not_active (n : Node) : n.finish.1.header.active = false := by
  cases hactive : n.header.active with
  | false => rw [finish_of_not_active hactive, hactive]
  | true => rw [finish_header hactive]; rfl

@[simp]
theorem update_header (n : Node) : (n.update m w).1.header = n.header := by
  cases hlive : n.header.live with
  | false => rw [update_of_not_live m w hlive]
  | true =>
    cases n with
    | leaf h a => rw [update_leaf]; split <;> rfl
    | sequence h nodes cursor => rw [update_sequence m w h hlive]; rfl
    | parallel h nodes running => rw [update_parallel m w h hlive]; rfl
    | repeating h child running =>
        cases child with
        | none => rw [update_vacant]
        | some child =>
            cases running with
            | true => rw [update_repeating_running m w h hlive]; rfl
            | false => rw [update_repeating_resting m w h hlive]; rfl

/-! ### Kinds -/

theorem start_kind (n : Node) : (n.start w).1.kind = n.kind := by
  cases n with
  | leaf h a =>
      rw [start]
      split
      · cases a <;> rfl
      · rfl
  | sequence h nodes cursor => rfl
  | parallel h nodes running => rw [start]; split <;> rfl
  | repeating h child running => rfl

theorem update_kind (n : Node) : (n.update m w).1.kind = n.kind := by
  cases hlive : n.header.live with
  | false => rw [update_of_not_live m w hlive]
  | true =>
    cases n with
    | leaf h a =>
        rw [update_leaf, if_pos (show h.live = true from hlive)]
        cases a <;> rfl
    | sequence h nodes cursor => rw [update_sequence m w h hlive]; rfl
    | parallel h nodes running => rw [update_parallel m w h hlive]; rfl
    | repeating h child running =>
        cases child with
        | none => rw [update_vacant]
        | some child =>
            cases running with
            | true => rw [update_repeating_running m w h hlive]; rfl
            | false => rw [update_repeating_resting m w h hlive]; rfl

theorem finish_kind {n : Node} (hactive : n.header.active = true) : n.finish.1.kind = n.kind := by
  cases hlive : n.header.live with
  | false => rw [finish_of_not_live hactive hlive]; cases n <;> rfl
  | true =>
    cases n with
    | leaf h a => rw [finish_leaf h hactive hlive]; rfl
    | sequence h nodes cursor => rw [finish_sequence h hactive hlive]; rfl
    | parallel h nodes running => rw [finish_parallel h hactive hlive]; rfl
    | repeating h child running =>
        cases child with
        | none => rw [finish_vacant h hactive]; rfl
        | some child =>
            cases running with
            | true => rw [finish_repeating_running h hactive hlive]; rfl
            | false => rw [finish_repeating_resting h hactive]; rfl

end Node

end Choreo
