import Choreo.Proofs.Node.Agenda

/-!
# What an operation has the children do

All that an operation does to the children of a node it does by turns, and its calls are the starts and
updates among these, with each child in the state in which its turn finds it. So the relation `Calls`
says no more and no less than `start` and `update` do.
-/

namespace Choreo.Node

variable {m : Moment} {w : Surroundings} {op : Operation} {n k : Node}

namespace Turn

/-- The call that a turn makes, if it makes one: to end a child is no call. -/
def call? : Turn → List Node → Option (Operation × Node)
  | start place, nodes => nodes[place]?.map (.start, ·)
  | update place, nodes => nodes[place]?.map (.update, ·)
  | finish _, _ => none

/-- The calls that turns make one after another. -/
def calls (m : Moment) (w : Surroundings) : List Turn → List Node → List (Operation × Node)
  | [], _ => []
  | t :: turns, nodes => (t.call? nodes).toList ++ calls m w turns (t.take m w nodes).1

theorem calls_shift (turns : List Turn) (n : Node) (rest : List Node) :
    calls m w (turns.map shift) (n :: rest) = calls m w turns rest := by
  induction turns generalizing rest with
  | nil => rfl
  | cons t turns ih =>
      have hcall : t.shift.call? (n :: rest) = t.call? rest := by cases t <;> rfl
      have hturn : (t.shift.take m w (n :: rest)).1 = n :: (t.take m w rest).1 := by cases t <;> rfl
      rw [List.map_cons, calls, hcall, hturn, ih]
      rfl

theorem takeAll_start (turns : List Turn) (n : Node) (rest : List Node) :
    takeAll m w (.start 0 :: turns) (n :: rest) =
      ((takeAll m w turns ((n.start w).1 :: rest)).1,
        (n.start w).2 ++ (takeAll m w turns ((n.start w).1 :: rest)).2) := rfl

theorem calls_start (turns : List Turn) (n : Node) (rest : List Node) :
    calls m w (.start 0 :: turns) (n :: rest) =
      (.start, n) :: calls m w turns ((n.start w).1 :: rest) := rfl

end Turn

/-- The turn of a first child that its parent has on record as running. -/
def dueTurn (w : Surroundings) (n : Node) : Turn := if n.hasStopped w then .finish 0 else .update 0

/-- The turns that the start of a parallel gives. -/
def starts (nodes : List Node) : List Turn := (List.range nodes.length).map .start

/-- The turns that a parallel gives in a tick. -/
def rota (w : Surroundings) : List Bool → List Node → List Turn
  | true :: running, n :: rest => n.dueTurn w :: (rota w running rest).map .shift
  | false :: running, _ :: rest => (rota w running rest).map .shift
  | _, _ => []

/-- The turns that an operation gives to the children of a node. -/
def turns (w : Surroundings) : Operation → Node → List Turn
  | _, leaf .. | .start, sequence .. | .start, repeating .. | .update, repeating _ none _ => []
  | .start, parallel h nodes _ => if h.opened.live then starts nodes else []
  | .update, sequence h nodes cursor => if h.live then agenda w cursor nodes else []
  | .update, parallel h nodes running => if h.live then rota w running nodes else []
  | .update, repeating h (some child) running =>
    if h.live then
      if running then [child.dueTurn w] else [.start 0, (child.start w).1.dueTurn w]
    else []

/-- The effects of an operation that no child has. -/
def ownEffects (m : Moment) (w : Surroundings) : Operation → Node → List Effect
  | op, leaf h a => (op.run m w (leaf h a)).2
  | .start, n => [.event (.started n.id)]
  | .update, _ => []

/-- An operation on a node is the turns of its children, and `Calls` are the calls of these. -/
structure Conducts (m : Moment) (w : Surroundings) (op : Operation) (n : Node) : Prop where
  children : (op.run m w n).1.children = (Turn.takeAll m w (n.turns w op) n.children).1
  effects : (op.run m w n).2 =
    n.ownEffects m w op ++ (Turn.takeAll m w (n.turns w op) n.children).2
  calls : ∀ call, call ∈ Turn.calls m w (n.turns w op) n.children ↔ Calls w (op, n) call

/-! ### Children that run -/

theorem take_dueTurn (n : Node) (rest : List Node) :
    (n.dueTurn w).take m w (n :: rest) = ((n.visit m w).1 :: rest, (n.visit m w).2.2) := by
  cases hstop : n.hasStopped w <;> simp [dueTurn, visit, hstop, Turn.take, Turn.onPlace]

theorem takeAll_dueTurn (n : Node) (rest : List Node) :
    Turn.takeAll m w [n.dueTurn w] (n :: rest) = ((n.visit m w).1 :: rest, (n.visit m w).2.2) := by
  simp only [Turn.takeAll, take_dueTurn, List.append_nil]

theorem call_dueTurn_eq_iff (n : Node) (rest : List Node) :
    (n.dueTurn w).call? (n :: rest) = some (op, k) ↔
      op = .update ∧ k.hasStopped w = false ∧ k = n := by
  cases hstop : n.hasStopped w with
  | true =>
      have hne : k.hasStopped w = false → k ≠ n := by
        rintro hgoes rfl
        rw [hstop] at hgoes
        cases hgoes
      simpa [dueTurn, hstop, Turn.call?] using fun _ => hne
  | false =>
      have hcall : (n.dueTurn w).call? (n :: rest) = some (.update, n) := by
        simp [dueTurn, hstop, Turn.call?]
      rw [hcall, Option.some.injEq, Prod.mk.injEq]
      constructor
      · rintro ⟨rfl, rfl⟩
        exact ⟨rfl, hstop, rfl⟩
      · rintro ⟨rfl, _, rfl⟩
        exact ⟨rfl, rfl⟩

theorem mem_calls_dueTurn (n : Node) :
    (op, k) ∈ Turn.calls m w [n.dueTurn w] [n] ↔
      op = .update ∧ k.hasStopped w = false ∧ k = n := by
  rw [Turn.calls, List.mem_append, Option.mem_toList, call_dueTurn_eq_iff]
  simp [Turn.calls]

/-! ### Sequences -/

theorem not_walkCalls_finished (next : Nat) (nodes : List Node) :
    ¬WalkCalls w (.finished next) nodes op k := by
  intro h
  generalize hcursor : Cursor.finished next = cursor at h
  induction h generalizing next with
  | @shift cursor _ _ _ _ _ ih =>
      cases cursor <;> cases hcursor
      exact ih _ rfl
  | _ => cases hcursor

theorem walkCalls_shift (cursor : Cursor) (n : Node) (rest : List Node) :
    WalkCalls w cursor.shift (n :: rest) op k ↔ WalkCalls w cursor rest op k := by
  refine ⟨fun h => ?_, .shift n⟩
  generalize hcursor : cursor.shift = shifted at h
  cases h with
  | @shift inner _ _ _ _ h =>
      obtain rfl : cursor = inner := by cases cursor <;> cases inner <;> cases hcursor <;> rfl
      exact h
  | _ => cases cursor <;> cases hcursor

theorem walkCalls_running (n : Node) (rest : List Node) :
    WalkCalls w (.running 0) (n :: rest) op k ↔
      if n.hasStopped w then WalkCalls w (.ready 0) rest op k else op = .update ∧ k = n := by
  constructor
  · intro h
    generalize hcursor : Cursor.running 0 = cursor at h
    cases h with
    | @shift inner => cases inner <;> cases hcursor
    | update _ hgoes => simp [hgoes]
    | retire hstop h => simpa [hstop] using h
    | _ => cases hcursor
  · intro h
    cases hstop : n.hasStopped w with
    | true => exact .retire hstop (by simpa [hstop] using h)
    | false =>
        obtain ⟨rfl, rfl⟩ : op = .update ∧ k = n := by simpa [hstop] using h
        exact .update rest hstop

theorem walkCalls_ready (n : Node) (rest : List Node) :
    WalkCalls w (.ready 0) (n :: rest) op k ↔
      (op = .start ∧ k = n) ∨ WalkCalls w (.running 0) ((n.start w).1 :: rest) op k := by
  constructor
  · intro h
    generalize hcursor : Cursor.ready 0 = cursor at h
    cases h with
    | @shift inner => cases inner <;> cases hcursor
    | start => exact Or.inl ⟨rfl, rfl⟩
    | started h => exact Or.inr h
    | _ => cases hcursor
  · rintro (⟨rfl, rfl⟩ | h)
    · exact .start _ rest
    · exact .started h

theorem mem_calls_agenda (cursor : Cursor) (nodes : List Node) :
    (op, k) ∈ Turn.calls m w (agenda w cursor nodes) nodes ↔ WalkCalls w cursor nodes op k := by
  induction cursor, nodes using Cursor.walkInduction with
  | nil cursor =>
      rw [agenda_nil]
      refine ⟨by simp [Turn.calls], fun h => by cases h⟩
  | finished next nodes =>
      rw [agenda_finished]
      simp [Turn.calls, not_walkCalls_finished]
  | shift cursor n rest ih => rw [agenda_shift, Turn.calls_shift, walkCalls_shift, ih]
  | running n rest ih =>
      rw [agenda_running, walkCalls_running]
      cases hstop : n.hasStopped w with
      | true => simpa [Turn.calls, Turn.call?, Turn.take, Turn.onPlace, Turn.calls_shift] using ih
      | false => simp [Turn.calls, Turn.call?]
  | ready n rest ih =>
      rw [agenda_ready, walkCalls_ready, Turn.calls_start, List.mem_cons, Prod.mk.injEq, ih]

/-! ### Parallels -/

theorem starts_cons (n : Node) (rest : List Node) :
    starts (n :: rest) = .start 0 :: (starts rest).map .shift := by
  rw [starts, List.length_cons, List.range_succ_eq_map, List.map_cons, List.map_map, starts,
    List.map_map]
  rfl

theorem takeAll_starts (nodes : List Node) : Turn.takeAll m w (starts nodes) nodes =
    (nodes.map fun n => (n.start w).1, nodes.flatMap fun n => (n.start w).2) := by
  induction nodes with
  | nil => rfl
  | cons n rest ih =>
      rw [starts_cons, Turn.takeAll_start, Turn.takeAll_shift, ih]
      rfl

theorem calls_starts (nodes : List Node) :
    Turn.calls m w (starts nodes) nodes = nodes.map (.start, ·) := by
  induction nodes with
  | nil => rfl
  | cons n rest ih =>
      rw [starts_cons, Turn.calls_start, Turn.calls_shift, ih]
      rfl

theorem updateRunning_eq_takeAll (running : List Bool) (nodes : List Node) :
    ((updateRunning m w false running nodes).1, (updateRunning m w false running nodes).2.2) =
      Turn.takeAll m w (rota w running nodes) nodes := by
  induction nodes generalizing running with
  | nil => cases running <;> simp [updateRunning, rota, Turn.takeAll]
  | cons n rest ih =>
      cases running with
      | nil => simp [updateRunning, rota, Turn.takeAll]
      | cons flag running =>
          cases flag with
          | true =>
              simp only [updateRunning_running, rota, Turn.takeAll, take_dueTurn,
                Turn.takeAll_shift, ← ih]
          | false => simp only [updateRunning_resting, rota, Turn.takeAll_shift, ← ih]

theorem exists_marked_cons (flag : Bool) (running : List Bool) (n : Node) (rest : List Node) :
    (∃ i : Nat, (n :: rest)[i]? = some k ∧ (flag :: running)[i]? = some true) ↔
      (k = n ∧ flag = true) ∨ ∃ i : Nat, rest[i]? = some k ∧ running[i]? = some true := by
  rw [← Nat.or_exists_add_one]
  simp [eq_comm]

theorem mem_calls_rota (running : List Bool) (nodes : List Node) :
    (op, k) ∈ Turn.calls m w (rota w running nodes) nodes ↔ op = .update ∧ k.hasStopped w = false ∧
      ∃ i : Nat, nodes[i]? = some k ∧ running[i]? = some true := by
  induction nodes generalizing running with
  | nil => cases running <;> simp [rota, Turn.calls]
  | cons n rest ih =>
      cases running with
      | nil => simp [rota, Turn.calls]
      | cons flag running =>
          cases flag with
          | true =>
              rw [rota, Turn.calls, take_dueTurn, Turn.calls_shift, List.mem_append,
                Option.mem_toList, call_dueTurn_eq_iff, ih, exists_marked_cons]
              tauto
          | false =>
              rw [rota, Turn.calls_shift, ih, exists_marked_cons]
              simp

/-! ### Operations -/

theorem Conducts.of_turns {turns : List Turn} {nodes : List Node} {effects : List Effect}
    (hturns : n.turns w op = turns) (htake : Turn.takeAll m w turns n.children = (nodes, effects))
    (hchildren : (op.run m w n).1.children = nodes)
    (heffects : (op.run m w n).2 = n.ownEffects m w op ++ effects)
    (hcalls : ∀ op' k, (op', k) ∈ Turn.calls m w turns n.children ↔ Calls w (op, n) (op', k)) :
    Conducts m w op n := by
  subst hturns
  refine ⟨?_, ?_, fun call => hcalls call.1 call.2⟩
  · rw [hchildren, htake]
  · rw [heffects, htake]

/-- An operation without turns does its own effects and no more. -/
theorem Conducts.of_turns_eq_nil (hturns : n.turns w op = [])
    (hchildren : (op.run m w n).1.children = n.children)
    (heffects : (op.run m w n).2 = n.ownEffects m w op)
    (hcalls : ∀ call, ¬Calls w (op, n) call) : Conducts m w op n := by
  refine .of_turns hturns rfl hchildren (by rw [heffects, List.append_nil]) fun op' k => ?_
  simpa [Turn.calls] using hcalls (op', k)

theorem conducts_leaf (h : Header) (a : Leaf) : Conducts m w op (leaf h a) := by
  refine .of_turns_eq_nil ?_ ?_ ?_ ?_
  · cases op <;> rfl
  · cases op with
    | start =>
        rw [Operation.run, start]
        split <;> rfl
    | update =>
        rw [Operation.run, update_leaf]
        split <;> rfl
  · rfl
  · rintro call ⟨⟩

theorem conducts_start (n : Node) : Conducts m w .start n := by
  cases n with
  | leaf h a => exact conducts_leaf h a
  | sequence h nodes cursor =>
      refine .of_turns_eq_nil rfl rfl rfl ?_
      rintro call ⟨⟩
  | repeating h child running =>
      refine .of_turns_eq_nil rfl rfl rfl ?_
      rintro call ⟨⟩
  | parallel h nodes running =>
      cases hlive : h.opened.live with
      | false =>
          have hstart : (parallel h nodes running).start w =
              (parallel h.opened nodes running, [.event (.started h.id)]) :=
            start_of_not_live w hlive
          refine .of_turns_eq_nil ?_ ?_ ?_ ?_
          · simp [turns, hlive]
          · rw [Operation.run, hstart]
            rfl
          · rw [Operation.run, hstart]
            rfl
          · rintro call ⟨⟩
            simp_all
      | true =>
          refine .of_turns ?_ (takeAll_starts nodes) ?_ ?_ ?_
          · simp [turns, hlive]
          · rw [Operation.run, start_parallel w h hlive]
            rfl
          · rw [Operation.run, start_parallel w h hlive]
            rfl
          · intro op k
            rw [children, calls_starts, List.mem_map]
            constructor
            · rintro ⟨c, hc, ⟨⟩⟩
              exact .startAll hlive hc
            · rintro ⟨⟩
              exact ⟨k, ‹_›, rfl⟩

section Live

variable {h : Header} (hlive : h.live = true)
include hlive

theorem conducts_walk (nodes : List Node) (cursor : Cursor) :
    Conducts m w .update (sequence h nodes cursor) := by
  refine .of_turns ?_ (walk_eq_takeAll m w cursor nodes).symm ?_ ?_ ?_
  · simp [turns, hlive]
  · rw [Operation.run, update_sequence m w h hlive]
    rfl
  · rw [Operation.run, update_sequence m w h hlive]
    rfl
  · intro op k
    refine (mem_calls_agenda cursor nodes).trans ⟨.walk hlive, ?_⟩
    rintro ⟨⟩
    assumption

theorem conducts_round (nodes : List Node) (running : List Bool) :
    Conducts m w .update (parallel h nodes running) := by
  refine .of_turns ?_ (updateRunning_eq_takeAll running nodes).symm ?_ ?_ ?_
  · simp [turns, hlive]
  · rw [Operation.run, update_parallel m w h hlive]
    rfl
  · rw [Operation.run, update_parallel m w h hlive]
    rfl
  · intro op k
    refine (mem_calls_rota running nodes).trans ⟨?_, ?_⟩
    · rintro ⟨rfl, hgoes, i, hk, hrunning⟩
      exact .updateRunning hlive hk hrunning hgoes
    · rintro ⟨⟩
      exact ⟨rfl, ‹_›, _, ‹_›, ‹_›⟩

theorem conducts_resume (child : Node) : Conducts m w .update (repeating h (some child) true) := by
  refine .of_turns ?_ (takeAll_dueTurn child []) ?_ ?_ ?_
  · simp [turns, hlive]
  · rw [Operation.run, update_repeating_running m w h hlive]
    rfl
  · rw [Operation.run, update_repeating_running m w h hlive]
    rfl
  · intro op k
    refine (mem_calls_dueTurn child).trans ⟨?_, ?_⟩
    · rintro ⟨rfl, hgoes, rfl⟩
      exact .resume hlive hgoes
    · rintro ⟨⟩
      exact ⟨rfl, ‹_›, rfl⟩

theorem conducts_restart (child : Node) : Conducts m w .update (repeating h (some child) false) := by
  have htake : Turn.takeAll m w [.start 0, (child.start w).1.dueTurn w] [child] =
      ([((child.start w).1.visit m w).1],
        (child.start w).2 ++ ((child.start w).1.visit m w).2.2) := by
    rw [Turn.takeAll_start, takeAll_dueTurn]
  refine .of_turns ?_ htake ?_ ?_ ?_
  · simp [turns, hlive]
  · rw [Operation.run, update_repeating_resting m w h hlive]
    rfl
  · rw [Operation.run, update_repeating_resting m w h hlive]
    rfl
  · intro op k
    rw [children, Option.toList_some, Turn.calls_start, List.mem_cons, Prod.mk.injEq,
      mem_calls_dueTurn]
    constructor
    · rintro (⟨rfl, rfl⟩ | ⟨rfl, hgoes, rfl⟩)
      · exact .restart hlive
      · exact .restarted hlive hgoes
    · rintro ⟨⟩
      · exact Or.inl ⟨rfl, rfl⟩
      · exact Or.inr ⟨rfl, ‹_›, rfl⟩

end Live

theorem conducts_update (n : Node) : Conducts m w .update n := by
  cases hlive : n.header.live with
  | false =>
      have hupdate : n.update m w = (n, []) := update_of_not_live m w hlive
      refine .of_turns_eq_nil ?_ ?_ ?_ ?_
      · cases n with
        | repeating h child running => cases child <;> simp_all [turns, header]
        | _ => simp_all [turns, header]
      · rw [Operation.run, hupdate]
      · cases n with
        | leaf h a => rfl
        | _ => rw [Operation.run, hupdate]; rfl
      · rintro call ⟨⟩ <;> simp_all [header]
  | true =>
      cases n with
      | leaf h a => exact conducts_leaf h a
      | sequence h nodes cursor => exact conducts_walk hlive nodes cursor
      | parallel h nodes running => exact conducts_round hlive nodes running
      | repeating h child running =>
          cases child with
          | none =>
              refine .of_turns_eq_nil rfl ?_ ?_ ?_
              · rw [Operation.run, update_vacant]
              · rw [Operation.run, update_vacant]
                rfl
              · rintro call ⟨⟩
          | some child =>
              cases running with
              | true => exact conducts_resume hlive child
              | false => exact conducts_restart hlive child

/-- **An operation is the turns of the children**, and the calls that follow from it are the starts and
updates among these. -/
theorem conducts (m : Moment) (w : Surroundings) (op : Operation) (n : Node) :
    Conducts m w op n := by
  cases op with
  | start => exact conducts_start n
  | update => exact conducts_update n

end Choreo.Node
