import Choreo.Proofs.Node.Visit

/-!
# Turns

Whatever a composite does in one call, it does by giving turns to its children: it starts a child
that is at rest, ends one that is active, or updates one that is active and has not stopped. `Turns`
is a series of such turns. A composite keeps a record of which children it runs; as long as the
record is right (`Tidy`), each of its operations is a series of turns and leaves the record right.
What is true of every turn then need not be proved for each kind of composite again.
-/

namespace Choreo

/-- Exactly the child that the cursor runs is active, and the cursor stands in the list. -/
def Cursor.Marks : Cursor → List Node → Prop
  | .running _, [] => False
  | .running 0, n :: rest => n.header.active = true ∧ ∀ c ∈ rest, c.header.active = false
  | .running (index + 1), n :: rest => n.header.active = false ∧ Marks (.running index) rest
  | .ready next, nodes => next ≤ nodes.length ∧ ∀ c ∈ nodes, c.header.active = false
  | .finished next, nodes => next = nodes.length ∧ ∀ c ∈ nodes, c.header.active = false

@[simp]
theorem Cursor.marks_ready (nodes : List Node) :
    (ready 0).Marks nodes ↔ ∀ c ∈ nodes, c.header.active = false := by
  cases nodes <;> simp [Marks]

theorem Cursor.marks_shift (cursor : Cursor) (n : Node) (rest : List Node) :
    cursor.shift.Marks (n :: rest) ↔ n.header.active = false ∧ cursor.Marks rest := by
  cases cursor <;> simp [shift, Marks, and_left_comm]

theorem Cursor.marks_map {f : Node → Node} (hf : ∀ n, (f n).header.active = n.header.active)
    (cursor : Cursor) (nodes : List Node) : cursor.Marks (nodes.map f) ↔ cursor.Marks nodes := by
  induction nodes generalizing cursor with
  | nil => rfl
  | cons n rest ih =>
      cases cursor using Cursor.headCases with
      | ready => simp [hf]
      | running => simp [Marks, hf]
      | finished => simp [Marks, hf]
      | shift cursor => rw [List.map_cons, marks_shift, marks_shift, hf, ih]

namespace Node

/-- The children that a composite has on record as running are the active ones. -/
def Tidy : Node → Prop
  | leaf .. => True
  | sequence _ nodes cursor => cursor.Marks nodes
  | parallel _ nodes running => running = nodes.map (·.header.active)
  | repeating _ child running => ∀ c ∈ child, c.header.active = running

/-- A series of turns of the nodes in a list, with their effects and what becomes of the list. -/
inductive Turns (m : Moment) (w : Surroundings) : List Node → List Effect → List Node → Prop
  | done (nodes : List Node) : Turns m w nodes [] nodes
  | start (before after : List Node) {result : List Node} {n : Node} {effects : List Effect}
      (hrest : n.header.active = false)
      (next : Turns m w (before ++ (n.start w).1 :: after) effects result) :
      Turns m w (before ++ n :: after) ((n.start w).2 ++ effects) result
  | update (before after : List Node) {result : List Node} {n : Node} {effects : List Effect}
      (hactive : n.header.active = true) (hgoes : n.hasStopped w = false)
      (next : Turns m w (before ++ (n.update m w).1 :: after) effects result) :
      Turns m w (before ++ n :: after) ((n.update m w).2 ++ effects) result
  | finish (before after : List Node) {result : List Node} {n : Node} {effects : List Effect}
      (hactive : n.header.active = true)
      (next : Turns m w (before ++ n.finish.1 :: after) effects result) :
      Turns m w (before ++ n :: after) (n.finish.2 ++ effects) result

variable {m : Moment} {w : Surroundings}

namespace Turns

variable {nodes result rest : List Node} {n : Node} {effects : List Effect}

theorem cons (turns : Turns m w nodes effects result) :
    Turns m w (n :: nodes) effects (n :: result) := by
  induction turns with
  | done nodes => exact .done _
  | start before after hrest _ ih => exact .start (n :: before) after hrest ih
  | update before after hactive hgoes _ ih => exact .update (n :: before) after hactive hgoes ih
  | finish before after hactive _ ih => exact .finish (n :: before) after hactive ih

theorem startHead (hrest : n.header.active = false)
    (next : Turns m w ((n.start w).1 :: rest) effects result) :
    Turns m w (n :: rest) ((n.start w).2 ++ effects) result :=
  .start [] rest hrest next

theorem finishHead (hactive : n.header.active = true)
    (next : Turns m w (n.finish.1 :: rest) effects result) :
    Turns m w (n :: rest) (n.finish.2 ++ effects) result :=
  .finish [] rest hactive next

theorem updateHead (hactive : n.header.active = true) (hgoes : n.hasStopped w = false)
    (next : Turns m w ((n.update m w).1 :: rest) effects result) :
    Turns m w (n :: rest) ((n.update m w).2 ++ effects) result :=
  .update [] rest hactive hgoes next

theorem visitHead (hactive : n.header.active = true)
    (next : Turns m w ((n.visit m w).1 :: rest) effects result) :
    Turns m w (n :: rest) ((n.visit m w).2.2 ++ effects) result := by
  cases hstop : n.hasStopped w with
  | true =>
      rw [visit_of_hasStopped m w hstop] at next ⊢
      exact finishHead hactive next
  | false =>
      rw [visit_of_not_hasStopped m w hstop] at next ⊢
      exact updateHead hactive hstop next

end Turns

theorem visit_active {n : Node} (hactive : n.header.active = true) :
    (n.visit m w).1.header.active = (n.visit m w).2.1 := by
  cases hstop : n.hasStopped w with
  | true => rw [visit_of_hasStopped m w hstop, finish_not_active]
  | false => rw [visit_of_not_hasStopped m w hstop, update_header, hactive]

/-! ### The operations on lists of children -/

theorem turns_startAll {nodes : List Node} (hrest : ∀ c ∈ nodes, c.header.active = false) :
    Turns m w nodes (nodes.flatMap fun n => (n.start w).2) (nodes.map fun n => (n.start w).1) := by
  induction nodes with
  | nil => exact .done []
  | cons n rest ih =>
      have htail := ih fun c hc => hrest c (by simp [hc])
      exact .startHead (hrest n (by simp)) htail.cons

theorem turns_finishAt {cursor : Cursor} {nodes : List Node} (hmarks : cursor.Marks nodes) :
    Turns m w nodes (finishAt cursor nodes).2 (finishAt cursor nodes).1 ∧
      ∀ c ∈ (finishAt cursor nodes).1, c.header.active = false := by
  induction nodes generalizing cursor with
  | nil => cases cursor <;> simp_all [finishAt, Cursor.Marks, Turns.done]
  | cons n rest ih =>
      cases cursor using Cursor.headCases with
      | ready => exact ⟨by simpa [finishAt] using .done _, by simpa [finishAt] using hmarks⟩
      | running =>
          obtain ⟨hactive, hrest⟩ := hmarks
          rw [finishAt_running]
          refine ⟨by simpa using Turns.finishHead hactive (.done (n.finish.1 :: rest)), ?_⟩
          simpa using hrest
      | finished => exact ⟨by simpa [finishAt] using .done _, by simpa [finishAt] using hmarks.2⟩
      | shift cursor =>
          obtain ⟨hn, hmarks⟩ := (cursor.marks_shift n rest).mp hmarks
          obtain ⟨hturns, hrest⟩ := ih hmarks
          rw [finishAt_shift]
          exact ⟨hturns.cons, by simpa [hn] using hrest⟩

theorem turns_finishRunning (nodes : List Node) :
    Turns m w nodes (finishRunning (nodes.map (·.header.active)) nodes).2
        (finishRunning (nodes.map (·.header.active)) nodes).1 ∧
      ∀ c ∈ (finishRunning (nodes.map (·.header.active)) nodes).1, c.header.active = false := by
  induction nodes with
  | nil => simp [finishRunning, Turns.done]
  | cons n rest ih =>
      obtain ⟨hturns, hrest⟩ := ih
      rw [List.map_cons, finishRunning_cons]
      cases hactive : n.header.active with
      | false => simpa [hactive] using ⟨hturns.cons, hrest⟩
      | true =>
          refine ⟨by simpa using Turns.finishHead hactive hturns.cons, ?_⟩
          simpa [Header.closed, hactive] using hrest

theorem turns_updateRunning (nodes : List Node) :
    Turns m w nodes (updateRunning m w false (nodes.map (·.header.active)) nodes).2.2
        (updateRunning m w false (nodes.map (·.header.active)) nodes).1 ∧
      (updateRunning m w false (nodes.map (·.header.active)) nodes).2.1 =
        (updateRunning m w false (nodes.map (·.header.active)) nodes).1.map (·.header.active) := by
  induction nodes with
  | nil => simp [updateRunning, Turns.done]
  | cons n rest ih =>
      obtain ⟨hturns, hflags⟩ := ih
      rw [List.map_cons]
      cases hactive : n.header.active with
      | false =>
          rw [updateRunning_resting]
          exact ⟨hturns.cons, by rw [List.map_cons, hactive, hflags]⟩
      | true =>
          rw [updateRunning_running]
          refine ⟨.visitHead hactive hturns.cons, ?_⟩
          rw [List.map_cons, visit_active hactive, hflags]

theorem turns_walk {cursor : Cursor} {nodes : List Node} (hmarks : cursor.Marks nodes) :
    Turns m w nodes (walk m w cursor nodes).2.2 (walk m w cursor nodes).1 ∧
      (walk m w cursor nodes).2.1.Marks (walk m w cursor nodes).1 := by
  induction cursor, nodes using Cursor.walkInduction with
  | nil cursor => cases cursor <;> simp_all [walk, Cursor.Marks, Turns.done]
  | finished next nodes => exact ⟨by simpa [walk] using .done nodes, by simpa [walk] using hmarks⟩
  | shift cursor n rest ih =>
      obtain ⟨hn, hmarks⟩ := (cursor.marks_shift n rest).mp hmarks
      obtain ⟨hturns, hafter⟩ := ih hmarks
      rw [walk_shift]
      exact ⟨hturns.cons, (Cursor.marks_shift _ _ _).mpr ⟨hn, hafter⟩⟩
  | running n rest ih =>
      obtain ⟨hactive, hrest⟩ := hmarks
      rw [walk_running]
      cases hstop : n.hasStopped w with
      | true =>
          obtain ⟨hturns, hafter⟩ := ih ((Cursor.marks_ready rest).mpr hrest)
          exact ⟨.finishHead hactive hturns.cons,
            (Cursor.marks_shift _ _ _).mpr ⟨finish_not_active n, hafter⟩⟩
      | false =>
          have hturns := Turns.updateHead hactive hstop (.done ((n.update m w).1 :: rest))
          exact ⟨by simpa using hturns, by simpa [Cursor.Marks, hactive] using hrest⟩
  | ready n rest ih =>
      rw [Cursor.marks_ready] at hmarks
      have hn : n.header.active = false := hmarks n (by simp)
      have hstarted : (n.start w).1.header.active = true := by simp [Header.opened]
      have hrest : ∀ c ∈ rest, c.header.active = false := fun c hc => hmarks c (by simp [hc])
      obtain ⟨hturns, hafter⟩ := ih (n.start w).1 ⟨hstarted, hrest⟩
      rw [walk_ready]
      exact ⟨.startHead hn hturns, hafter⟩

/-! ### The operations on a node

Besides the turns of its children, an operation on a node has its own event and, if the node is a
leaf, its own writes. -/

def startWrites (w : Surroundings) : Node → List Write
  | leaf h a => if h.opened.live then (a.start w).2 else []
  | _ => []

def updateWrites (m : Moment) (w : Surroundings) : Node → List Write
  | leaf h a => if h.live then (a.update m w).2 else []
  | _ => []

def finishWrites : Node → List Write
  | leaf h a => if h.live then a.finish else []
  | _ => []

/-- What a node is owed by its children: those of a live node are as its record has them, and those
of any other node are at rest. -/
def InOrder (n : Node) : Prop :=
  if n.header.live then n.Tidy else ∀ c ∈ n.children, c.header.active = false

theorem inOrder_of_rest {n : Node} (hlive : n.header.live = false)
    (hrest : ∀ c ∈ n.children, c.header.active = false) : n.InOrder := by
  rw [InOrder, if_neg (by simp [hlive])]
  exact hrest

theorem inOrder_of_tidy {n : Node} (hlive : n.header.live = true) (htidy : n.Tidy) :
    n.InOrder := by
  rw [InOrder, if_pos hlive]
  exact htidy

@[simp]
theorem withHeader_header (n : Node) (h : Header) : (n.withHeader h).header = h := by
  cases n <;> rfl

@[simp]
theorem withHeader_children (n : Node) (h : Header) : (n.withHeader h).children = n.children := by
  cases n <;> rfl

theorem start_turns (m : Moment) (w : Surroundings) {n : Node}
    (hrest : ∀ c ∈ n.children, c.header.active = false) :
    ∃ effects, (n.start w).2 =
        .event (.started n.id) :: (n.startWrites w).map .write ++ effects ∧
      Turns m w n.children effects (n.start w).1.children ∧ (n.start w).1.InOrder := by
  have hheader : (n.start w).1.header.live = n.header.opened.live := by rw [start_header]
  cases hlive : n.header.opened.live with
  | false =>
      rw [start_of_not_live w hlive]
      refine ⟨[], ?_, ?_, inOrder_of_rest (by simpa using hlive) (by simpa using hrest)⟩
      · cases n <;> simp_all [startWrites, header]
      · simpa using Turns.done n.children
  | true =>
    rw [hlive] at hheader
    cases n with
    | leaf h a =>
        rw [start_leaf w h hlive] at hheader ⊢
        have hlive : h.opened.live = true := hlive
        refine ⟨[], ?_, .done [], inOrder_of_tidy hheader trivial⟩
        simp [startWrites, hlive, id, header]
    | sequence h nodes cursor =>
        rw [start_sequence w h hlive] at hheader ⊢
        have hmarks := (Cursor.marks_ready nodes).mpr hrest
        exact ⟨[], rfl, .done nodes, inOrder_of_tidy hheader hmarks⟩
    | parallel h nodes running =>
        rw [start_parallel w h hlive] at hheader ⊢
        have htidy : (nodes.map fun _ => true) =
            (nodes.map fun n => (n.start w).1).map (·.header.active) := by
          rw [List.map_map]
          exact List.map_congr_left fun n _ => by simp [Header.opened]
        exact ⟨_, rfl, turns_startAll hrest, inOrder_of_tidy hheader htidy⟩
    | repeating h child running =>
        rw [start_repeating w h hlive] at hheader ⊢
        have htidy : (repeating h.opened child false).Tidy := by
          simpa [Tidy, children] using hrest
        exact ⟨[], rfl, .done child.toList, inOrder_of_tidy hheader htidy⟩

theorem update_turns (m : Moment) (w : Surroundings) {n : Node} (horder : n.InOrder) :
    ∃ effects, (n.update m w).2 = (n.updateWrites m w).map .write ++ effects ∧
      Turns m w n.children effects (n.update m w).1.children ∧ (n.update m w).1.InOrder := by
  have hheader : (n.update m w).1.header.live = n.header.live := by rw [update_header]
  cases hlive : n.header.live with
  | false =>
      rw [update_of_not_live m w hlive]
      refine ⟨[], ?_, .done n.children, horder⟩
      cases n <;> simp_all [updateWrites, header]
  | true =>
    rw [InOrder, if_pos hlive] at horder
    rw [hlive] at hheader
    cases n with
    | leaf h a =>
        have hlive : h.live = true := hlive
        rw [update_leaf, if_pos hlive] at hheader ⊢
        refine ⟨[], ?_, .done [], inOrder_of_tidy hheader trivial⟩
        simp [updateWrites, hlive]
    | sequence h nodes cursor =>
        obtain ⟨hturns, hmarks⟩ := turns_walk (m := m) (w := w) horder
        rw [update_sequence m w h hlive] at hheader ⊢
        exact ⟨_, rfl, hturns, inOrder_of_tidy hheader hmarks⟩
    | parallel h nodes running =>
        obtain rfl : running = nodes.map (·.header.active) := horder
        obtain ⟨hturns, hflags⟩ := turns_updateRunning (m := m) (w := w) nodes
        rw [update_parallel m w h hlive] at hheader ⊢
        exact ⟨_, rfl, hturns, inOrder_of_tidy hheader hflags⟩
    | repeating h child running =>
        rcases child with _ | child
        · rw [update_vacant] at hheader ⊢
          exact ⟨[], rfl, .done [], inOrder_of_tidy hheader horder⟩
        cases running with
        | true =>
            have hactive : child.header.active = true := horder child rfl
            have hturns := Turns.visitHead hactive (.done [(child.visit m w).1])
            have htidy : (repeating h (some (child.visit m w).1) (child.visit m w).2.1).Tidy := by
              simpa [Tidy] using visit_active hactive
            rw [update_repeating_running m w h hlive] at hheader ⊢
            exact ⟨_, by simp [updateWrites], hturns, inOrder_of_tidy hheader htidy⟩
        | false =>
            have hrest : child.header.active = false := horder child rfl
            have hactive : (child.start w).1.header.active = true := by simp [Header.opened]
            have hturns := Turns.startHead hrest
              (.visitHead hactive (.done [((child.start w).1.visit m w).1]))
            have htidy : (repeating h (some ((child.start w).1.visit m w).1)
                ((child.start w).1.visit m w).2.1).Tidy := by
              simpa [Tidy] using visit_active hactive
            rw [update_repeating_resting m w h hlive] at hheader ⊢
            exact ⟨_, by simp [updateWrites], hturns, inOrder_of_tidy hheader htidy⟩

theorem finish_turns (m : Moment) (w : Surroundings) {n : Node} (hactive : n.header.active = true)
    (horder : n.InOrder) :
    ∃ effects, n.finish.2 =
        n.finishWrites.map .write ++ effects ++ [.event (.ended n.id)] ∧
      Turns m w n.children effects n.finish.1.children ∧ n.finish.1.InOrder := by
  have hheader : n.finish.1.header.live = false := by rw [finish_header hactive]; rfl
  cases hlive : n.header.live with
  | false =>
      rw [InOrder, if_neg (by simp [hlive])] at horder
      rw [finish_of_not_live hactive hlive] at hheader ⊢
      have hafter := inOrder_of_rest hheader (by simpa using horder)
      refine ⟨[], ?_, by simpa using Turns.done n.children, hafter⟩
      cases n <;> simp_all [finishWrites, header]
  | true =>
    rw [InOrder, if_pos hlive] at horder
    cases n with
    | leaf h a =>
        rw [finish_leaf h hactive hlive] at hheader ⊢
        have hlive : h.live = true := hlive
        refine ⟨[], ?_, .done [], inOrder_of_rest hheader (by simp [children])⟩
        simp [finishWrites, hlive, id, header]
    | sequence h nodes cursor =>
        obtain ⟨hturns, hrest⟩ := turns_finishAt (m := m) (w := w) horder
        rw [finish_sequence h hactive hlive] at hheader ⊢
        exact ⟨_, rfl, hturns, inOrder_of_rest hheader hrest⟩
    | parallel h nodes running =>
        obtain rfl : running = nodes.map (·.header.active) := horder
        obtain ⟨hturns, hrest⟩ := turns_finishRunning (m := m) (w := w) nodes
        rw [finish_parallel h hactive hlive] at hheader ⊢
        exact ⟨_, rfl, hturns, inOrder_of_rest hheader hrest⟩
    | repeating h child running =>
        rcases child with _ | child
        · rw [finish_vacant h hactive] at hheader ⊢
          exact ⟨[], rfl, .done [], inOrder_of_rest hheader (by simp [children])⟩
        cases running with
        | true =>
            have hchild : child.header.active = true := horder child rfl
            have hturns := Turns.finishHead (m := m) (w := w) hchild (.done [child.finish.1])
            rw [finish_repeating_running h hactive hlive] at hheader ⊢
            refine ⟨_, ?_, hturns, inOrder_of_rest hheader (by simp [children])⟩
            simp [finishWrites, id, header]
        | false =>
            have hchild : child.header.active = false := horder child rfl
            rw [finish_repeating_resting h hactive] at hheader ⊢
            have hafter := inOrder_of_rest hheader (by simpa [children] using hchild)
            exact ⟨[], rfl, .done [child], hafter⟩

end Node

end Choreo
