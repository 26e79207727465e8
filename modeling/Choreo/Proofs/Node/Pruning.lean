import Choreo.Proofs.Node.Renumbering
import Choreo.Proofs.Node.Turns
import Mathlib.Data.List.Forall2

/-!
# Trees without their dead steps

A child of a sequence that is disabled or at fault is started when its turn comes, ended at once, and
left behind in the same tick. `Pruned` relates a tree that has such children to one that has not: the
nodes that both have carry other numbers, and a cursor of the one stands in a shorter list than that
of the other. Every operation on the two trees leaves them so related, and what is told of the first,
without the dead children and under the new numbers, is what is told of the second.
-/

namespace Choreo

/-! ### Telling under other numbers -/

section Retelling

variable (number : Nat → Option Nat)

/-- The same under a new number. What has none is not told. -/
def Happening.retell : Happening → Option Happening
  | started n => (number n).map started
  | ended n => (number n).map ended
  | faulted n => (number n).map faulted
  | h => some h

def Effect.retell : Effect → Option Effect
  | event h => (h.retell number).map event
  | write x => some (write x)

def Effect.retold (effects : List Effect) : List Effect := effects.filterMap (Effect.retell number)

namespace Effect

theorem retold_append (effects more : List Effect) :
    retold number (effects ++ more) = retold number effects ++ retold number more :=
  List.filterMap_append

@[simp]
theorem retold_nil : retold number [] = [] := rfl

@[simp]
theorem retold_writes (writes : List Write) :
    retold number (writes.map .write) = writes.map .write := by
  rw [retold, List.filterMap_map]
  exact congrFun List.filterMap_eq_map' writes

variable {number} {i k : Nat}

theorem retold_started (hi : number i = some k) :
    retold number [.event (.started i)] = [.event (.started k)] := by
  simp [retold, retell, Happening.retell, hi]

theorem retold_ended (hi : number i = some k) :
    retold number [.event (.ended i)] = [.event (.ended k)] := by
  simp [retold, retell, Happening.retell, hi]

theorem retold_started_of_none (hi : number i = none) :
    retold number [.event (.started i)] = [] := by
  simp [retold, retell, Happening.retell, hi]

theorem retold_ended_of_none (hi : number i = none) : retold number [.event (.ended i)] = [] := by
  simp [retold, retell, Happening.retell, hi]

end Effect

end Retelling

/-! ### The relation -/

/-- The same header under its new number. -/
structure Header.Renamed (number : Nat → Option Nat) (h h' : Header) : Prop where
  id : number h.id = some h'.id
  rest : h' = { h with id := h'.id }

namespace Header.Renamed

variable {number : Nat → Option Nat} {h h' : Header}

theorem opened (hh : Renamed number h h') : Renamed number h.opened h'.opened :=
  ⟨hh.id, congrArg Header.opened hh.rest⟩

theorem closed (hh : Renamed number h h') : Renamed number h.closed h'.closed :=
  ⟨hh.id, congrArg Header.closed hh.rest⟩

theorem enabled (hh : Renamed number h h') : h'.enabled = h.enabled := by
  rw [hh.rest]

theorem fault (hh : Renamed number h h') : h'.fault = h.fault := by
  rw [hh.rest]

theorem active (hh : Renamed number h h') : h'.active = h.active := by
  rw [hh.rest]

theorem live (hh : Renamed number h h') : h'.live = h.live := by
  rw [hh.rest]

end Header.Renamed

namespace Cursor

/-- The same place among the children that are able. One that stands on another child stands before the
next able one. -/
def skip : Cursor → List Node → Cursor
  | c, [] => c
  | ready 0, _ :: _ => ready 0
  | finished 0, _ :: _ => finished 0
  | running 0, n :: _ => if n.header.able then running 0 else ready 0
  | ready (next + 1), n :: rest => beyond n (skip (ready next) rest)
  | finished (next + 1), n :: rest => beyond n (skip (finished next) rest)
  | running (index + 1), n :: rest => beyond n (skip (running index) rest)
where
  beyond (n : Node) (c : Cursor) : Cursor := if n.header.able then c.shift else c

variable {n : Node} (hable : n.header.able = true) (hdead : n.header.able = false)
  (c : Cursor) (nodes rest : List Node)

theorem skip_nil : c.skip [] = c := by
  cases c <;> rfl

theorem skip_ready : (ready 0).skip nodes = ready 0 := by
  cases nodes <;> rfl

include hable in
theorem skip_running_able : (running 0).skip (n :: rest) = running 0 :=
  if_pos hable

include hdead in
theorem skip_running_dead : (running 0).skip (n :: rest) = ready 0 :=
  if_neg (by simp [hdead])

include hable in
theorem skip_shift_able : c.shift.skip (n :: rest) = (c.skip rest).shift := by
  cases c <;> exact if_pos hable

include hdead in
theorem skip_shift_dead : c.shift.skip (n :: rest) = c.skip rest := by
  cases c <;> exact if_neg (by simp [hdead])

theorem skip_finished (next : Nat) : ∃ next', (finished next).skip nodes = finished next' := by
  induction nodes generalizing next with
  | nil => exact ⟨next, skip_nil _⟩
  | cons n rest ih =>
      cases next with
      | zero => exact ⟨0, by simp [skip]⟩
      | succ next =>
          obtain ⟨next', hnext⟩ := ih next
          change ∃ next', (finished next).shift.skip (n :: rest) = finished next'
          cases hable : n.header.able with
          | true => exact ⟨next' + 1, by rw [skip_shift_able hable, hnext]; rfl⟩
          | false => exact ⟨next', by rw [skip_shift_dead hable, hnext]⟩

theorem isFinished_skip : (c.skip nodes).isFinished = c.isFinished := by
  induction nodes generalizing c with
  | nil => rw [skip_nil]
  | cons n rest ih =>
      cases c using headCases with
      | ready => rw [skip_ready]
      | finished next =>
          obtain ⟨next', hnext⟩ := skip_finished (n :: rest) next
          rw [hnext]
          rfl
      | running => cases hable : n.header.able <;> simp [skip, hable, isFinished]
      | shift c =>
          cases hable : n.header.able with
          | true => rw [skip_shift_able hable, isFinished_shift, isFinished_shift, ih]
          | false => rw [skip_shift_dead hable, isFinished_shift, ih]

end Cursor

namespace Node

variable (number : Nat → Option Nat)

/-- A child that the pruned tree does not have, and that has nothing but its start and its end. -/
structure Dead (n : Node) : Prop where
  able : n.header.able = false
  live : n.header.live = false
  nameless : number n.id = none

/-- The second list is the first without the dead children. -/
inductive Thinned (R : Node → Node → Prop) : List Node → List Node → Prop
  | nil : Thinned R [] []
  | keep {n k : Node} {rest rest' : List Node} (hable : n.header.able = true) (hn : R n k)
      (hrest : Thinned R rest rest') : Thinned R (n :: rest) (k :: rest')
  | drop {n : Node} {rest rest' : List Node} (hdead : n.Dead number)
      (hrest : Thinned R rest rest') : Thinned R (n :: rest) rest'

inductive Pruned : Node → Node → Prop
  | leaf {h h' : Header} {a : Leaf} (hh : h.Renamed number h') : Pruned (leaf h a) (leaf h' a)
  | sequence {h h' : Header} {nodes nodes' : List Node} {cursor cursor' : Cursor}
      (hh : h.Renamed number h') (below : Thinned number Pruned nodes nodes')
      (record : h.live = true → cursor' = cursor.skip nodes) :
      Pruned (sequence h nodes cursor) (sequence h' nodes' cursor')
  | parallel {h h' : Header} {nodes nodes' : List Node} {running : List Bool}
      (hh : h.Renamed number h') (below : List.Forall₂ Pruned nodes nodes') :
      Pruned (parallel h nodes running) (parallel h' nodes' running)
  | vacant {h h' : Header} {running : Bool} (hh : h.Renamed number h') :
      Pruned (repeating h none running) (repeating h' none running)
  | repeating {h h' : Header} {child child' : Node} {running : Bool}
      (hh : h.Renamed number h') (below : Pruned child child') :
      Pruned (repeating h (some child) running) (repeating h' (some child') running)

/-- The results of an operation on each of two trees. -/
structure PrunedAfter (result result' : Node × List Effect) : Prop where
  node : Pruned number result.1 result'.1
  told : Effect.retold number result.2 = result'.2

structure DeadAfter (result : Node × List Effect) : Prop where
  node : result.1.Dead number
  told : Effect.retold number result.2 = []

structure AllPrunedAfter (result result' : List Node × List Effect) : Prop where
  nodes : List.Forall₂ (Pruned number) result.1 result'.1
  told : Effect.retold number result.2 = result'.2

variable {number} {m : Moment} {w : Surroundings} {n k : Node} {nodes nodes' : List Node}

theorem AllPrunedAfter.of_forall₂ (turn : Node → Node × List Effect)
    (hpruned : List.Forall₂ (Pruned number) nodes nodes')
    (hturn : ∀ n ∈ nodes, ∀ k, Pruned number n k → PrunedAfter number (turn n) (turn k)) :
    AllPrunedAfter number (nodes.map fun n => (turn n).1, nodes.flatMap fun n => (turn n).2)
      (nodes'.map fun n => (turn n).1, nodes'.flatMap fun n => (turn n).2) := by
  induction hpruned with
  | nil => exact ⟨.nil, rfl⟩
  | @cons n k rest rest' hn _ ih =>
      obtain ⟨hnode, htold⟩ := hturn n (by simp) k hn
      obtain ⟨hnodes, hmore⟩ := ih fun n hn => hturn n (by simp [hn])
      refine ⟨.cons hnode hnodes, ?_⟩
      rw [List.flatMap_cons, List.flatMap_cons, Effect.retold_append, htold, hmore]

theorem Pruned.header (h : Pruned number n k) : n.header.Renamed number k.header := by
  cases h <;> assumption

theorem Pruned.isComplete (h : Pruned number n k) (hlive : n.header.live = true) :
    k.isComplete = n.isComplete := by
  cases h with
  | sequence hh below record =>
      rw [record hlive]
      exact Cursor.isFinished_skip _ _
  | _ => rfl

theorem Pruned.hasStopped (h : Pruned number n k) (w : Surroundings) :
    k.hasStopped w = n.hasStopped w := by
  have hover : k.isOver = n.isOver := by
    rw [isOver, isOver, h.header.live]
    cases hlive : n.header.live with
    | false => rfl
    | true => rw [h.isComplete hlive]
  rw [Node.hasStopped, Node.hasStopped, hover, h.header.enabled, h.header.fault]

theorem Dead.hasStopped (h : n.Dead number) (w : Surroundings) : n.hasStopped w = true := by
  have hlive := h.live
  simp [Node.hasStopped, isOver, hlive]

/-- A node that is not live keeps no record of its children. -/
theorem Pruned.withHeader (h : Pruned number n k) {h₁ h₂ : Header} (hh : h₁.Renamed number h₂)
    (hlive : h₁.live = false) : Pruned number (n.withHeader h₁) (k.withHeader h₂) := by
  cases h with
  | leaf _ => exact .leaf hh
  | sequence _ below _ =>
      refine .sequence hh below fun hcontra => ?_
      rw [hlive] at hcontra
      contradiction
  | parallel _ below => exact .parallel hh below
  | vacant _ => exact .vacant hh
  | repeating _ below => exact .repeating hh below

@[simp]
theorem start_able (n : Node) : (n.start w).1.header.able = n.header.able := by
  rw [start_header]
  rfl

@[simp]
theorem finish_able (n : Node) : n.finish.1.header.able = n.header.able := by
  cases hactive : n.header.active with
  | false => rw [finish_of_not_active hactive]
  | true => rw [finish_header hactive]; rfl

/-! ### Starting -/

theorem Dead.start (h : n.Dead number) (w : Surroundings) : DeadAfter number (n.start w) := by
  have hlive : n.header.opened.live = false := h.able
  rw [start_of_not_live w hlive]
  refine ⟨⟨?_, ?_, ?_⟩, Effect.retold_started_of_none h.nameless⟩
  · rw [withHeader_header]
    exact h.able
  · rw [withHeader_header]
    exact hlive
  · rw [id, withHeader_header]
    exact h.nameless

theorem Pruned.start (h : Pruned number n k) (w : Surroundings) :
    PrunedAfter number (n.start w) (k.start w) := by
  induction n generalizing k with
  | node n ih =>
    have hopened := h.header.opened
    cases hlive : n.header.opened.live with
    | false =>
        rw [start_of_not_live w hlive, start_of_not_live w (hopened.live.trans hlive)]
        exact ⟨h.withHeader hopened hlive, Effect.retold_started h.header.id⟩
    | true =>
      have hlive' := hopened.live.trans hlive
      have hstarted := Effect.retold_started h.header.id
      cases h with
      | @leaf h h' a hh =>
          rw [start_leaf w h hlive, start_leaf w h' hlive']
          refine ⟨.leaf hopened, ?_⟩
          rw [← List.singleton_append, Effect.retold_append, Effect.retold_writes]
          exact congrArg (· ++ _) hstarted
      | @sequence h h' nodes nodes' cursor cursor' hh below record =>
          rw [start_sequence w h hlive, start_sequence w h' hlive']
          exact ⟨.sequence hopened below fun _ => (Cursor.skip_ready nodes).symm, hstarted⟩
      | @parallel h h' nodes nodes' running hh below =>
          obtain ⟨hnodes, htold⟩ := AllPrunedAfter.of_forall₂ (start w) below
            fun c hc _ hpruned => ih c hc hpruned
          have hflags : (nodes'.map fun _ => true) = nodes.map fun _ => true := by
            rw [List.map_const', List.map_const', below.length_eq]
          rw [start_parallel w h hlive, start_parallel w h' hlive', hflags]
          refine ⟨.parallel hopened hnodes, ?_⟩
          rw [← List.singleton_append, Effect.retold_append, htold]
          exact congrArg (· ++ _) hstarted
      | @vacant h h' running hh =>
          rw [start_repeating w h hlive, start_repeating w h' hlive']
          exact ⟨.vacant hopened, hstarted⟩
      | @repeating h h' child child' running hh below =>
          rw [start_repeating w h hlive, start_repeating w h' hlive']
          exact ⟨.repeating hopened below, hstarted⟩

/-! ### Ending -/

theorem Dead.finish (h : n.Dead number) : DeadAfter number n.finish := by
  cases hactive : n.header.active with
  | false =>
      rw [finish_of_not_active hactive]
      exact ⟨h, rfl⟩
  | true =>
      rw [finish_of_not_live hactive h.live]
      refine ⟨⟨?_, ?_, ?_⟩, Effect.retold_ended_of_none h.nameless⟩
      · rw [withHeader_header]
        exact h.able
      · rw [withHeader_header]
        rfl
      · rw [id, withHeader_header]
        exact h.nameless

/-- The results of an operation on each of two lists of children. -/
structure ThinnedAfter (number : Nat → Option Nat) (result result' : List Node × List Effect) :
    Prop where
  nodes : Thinned number (Pruned number) result.1 result'.1
  told : Effect.retold number result.2 = result'.2

theorem Thinned.finishAt (h : Thinned number (Pruned number) nodes nodes')
    (hfinish : ∀ n ∈ nodes, ∀ k, Pruned number n k → PrunedAfter number n.finish k.finish)
    (cursor : Cursor) :
    ThinnedAfter number (finishAt cursor nodes) (finishAt (cursor.skip nodes) nodes') := by
  induction h generalizing cursor with
  | nil =>
      rw [Cursor.skip_nil]
      refine ⟨?_, ?_⟩ <;> cases cursor <;> simp [Node.finishAt, Thinned.nil]
  | @keep n k rest rest' hable hn hrest ih =>
      have ih := ih fun n hn => hfinish n (by simp [hn])
      cases cursor using Cursor.headCases with
      | ready =>
          rw [Cursor.skip_ready]
          simpa [Node.finishAt] using ⟨.keep hable hn hrest, rfl⟩
      | finished next =>
          obtain ⟨next', hnext⟩ := Cursor.skip_finished (n :: rest) next
          rw [hnext]
          simpa [Node.finishAt] using ⟨.keep hable hn hrest, rfl⟩
      | running =>
          obtain ⟨hnode, htold⟩ := hfinish n (by simp) k hn
          rw [Cursor.skip_running_able hable, finishAt_running, finishAt_running]
          exact ⟨.keep (by simpa using hable) hnode hrest, htold⟩
      | shift cursor =>
          obtain ⟨hnodes, htold⟩ := ih cursor
          rw [Cursor.skip_shift_able hable, finishAt_shift, finishAt_shift]
          exact ⟨.keep hable hn hnodes, htold⟩
  | @drop n rest rest' hdead hrest ih =>
      have ih := ih fun n hn => hfinish n (by simp [hn])
      cases cursor using Cursor.headCases with
      | ready =>
          rw [Cursor.skip_ready]
          simpa [Node.finishAt] using ⟨.drop hdead hrest, rfl⟩
      | finished next =>
          obtain ⟨next', hnext⟩ := Cursor.skip_finished (n :: rest) next
          rw [hnext]
          simpa [Node.finishAt] using ⟨.drop hdead hrest, rfl⟩
      | running =>
          obtain ⟨hnode, htold⟩ := hdead.finish
          have hidle : Node.finishAt (.ready 0) rest' = (rest', []) := by simp [Node.finishAt]
          rw [Cursor.skip_running_dead hdead.able, finishAt_running, hidle]
          exact ⟨.drop hnode hrest, htold⟩
      | shift cursor =>
          obtain ⟨hnodes, htold⟩ := ih cursor
          rw [Cursor.skip_shift_dead hdead.able, finishAt_shift]
          exact ⟨.drop hdead hnodes, htold⟩

theorem finishRunning_pruned (h : List.Forall₂ (Pruned number) nodes nodes')
    (hfinish : ∀ n ∈ nodes, ∀ k, Pruned number n k → PrunedAfter number n.finish k.finish)
    (running : List Bool) :
    AllPrunedAfter number (finishRunning running nodes) (finishRunning running nodes') := by
  induction h generalizing running with
  | nil => cases running <;> exact ⟨.nil, rfl⟩
  | @cons n k rest rest' hn hrest ih =>
      cases running with
      | nil => exact ⟨.cons hn hrest, rfl⟩
      | cons flag running =>
          obtain ⟨hnodes, hmore⟩ := ih (fun n hn => hfinish n (by simp [hn])) running
          obtain ⟨hnode, htold⟩ := hfinish n (by simp) k hn
          rw [finishRunning_cons, finishRunning_cons]
          cases flag with
          | false => exact ⟨.cons hn hnodes, hmore⟩
          | true =>
              refine ⟨.cons hnode hnodes, ?_⟩
              rw [Effect.retold_append, hmore]
              exact congrArg (· ++ _) htold

theorem Pruned.finish (h : Pruned number n k) : PrunedAfter number n.finish k.finish := by
  induction n generalizing k with
  | node n ih =>
    have hactiveEq := h.header.active
    have hliveEq := h.header.live
    cases hactive : n.header.active with
    | false =>
        rw [finish_of_not_active hactive, finish_of_not_active (hactiveEq.trans hactive)]
        exact ⟨h, rfl⟩
    | true =>
      have hactive' := hactiveEq.trans hactive
      have hclosed := h.header.closed
      have hended := Effect.retold_ended h.header.id
      cases hlive : n.header.live with
      | false =>
          rw [finish_of_not_live hactive hlive, finish_of_not_live hactive' (hliveEq.trans hlive)]
          exact ⟨h.withHeader hclosed rfl, hended⟩
      | true =>
        have hlive' := hliveEq.trans hlive
        -- What is told before the node's own end.
        have hchildren : ∀ {effects effects' : List Effect}, Effect.retold number effects = effects' →
            Effect.retold number (effects ++ [.event (.ended n.id)]) =
              effects' ++ [.event (.ended k.id)] := by
          intro effects effects' htold
          rw [Effect.retold_append, htold]
          exact congrArg (effects' ++ ·) hended
        cases h with
        | @leaf h h' a hh =>
            rw [finish_leaf h hactive hlive, finish_leaf h' hactive' hlive']
            exact ⟨.leaf hclosed, hchildren (Effect.retold_writes number a.finish)⟩
        | @sequence h h' nodes nodes' cursor cursor' hh below record =>
            obtain ⟨hnodes, htold⟩ := below.finishAt (fun c hc _ hpruned => ih c hc hpruned) cursor
            rw [finish_sequence h hactive hlive, finish_sequence h' hactive' hlive', record hlive]
            exact ⟨.sequence hclosed hnodes (by simp [Header.closed]), hchildren htold⟩
        | @parallel h h' nodes nodes' running hh below =>
            obtain ⟨hnodes, htold⟩ :=
              finishRunning_pruned below (fun c hc _ hpruned => ih c hc hpruned) running
            rw [finish_parallel h hactive hlive, finish_parallel h' hactive' hlive']
            exact ⟨.parallel hclosed hnodes, hchildren htold⟩
        | @vacant h h' running hh =>
            rw [finish_vacant h hactive, finish_vacant h' hactive']
            exact ⟨.vacant hclosed, hended⟩
        | @repeating h h' child child' running hh below =>
            cases running with
            | true =>
                obtain ⟨hnode, htold⟩ := ih child (by simp [children]) below
                rw [finish_repeating_running h hactive hlive,
                  finish_repeating_running h' hactive' hlive']
                exact ⟨.repeating hclosed hnode, hchildren htold⟩
            | false =>
                rw [finish_repeating_resting h hactive, finish_repeating_resting h' hactive']
                exact ⟨.repeating hclosed below, hended⟩

/-! ### Updating -/

section Update

variable {bound : Nat}
  (hupdate : ∀ n : Node, n.size < bound → ∀ k, Pruned number n k →
    PrunedAfter number (n.update m w) (k.update m w))
include hupdate

theorem Pruned.visit_of_lt (h : Pruned number n k) (hn : n.size < bound) :
    Pruned number (n.visit m w).1 (k.visit m w).1 ∧ (k.visit m w).2.1 = (n.visit m w).2.1 ∧
      Effect.retold number (n.visit m w).2.2 = (k.visit m w).2.2 := by
  have hstopped := h.hasStopped w
  cases hstop : n.hasStopped w with
  | true =>
      obtain ⟨hnode, htold⟩ := h.finish
      rw [visit_of_hasStopped m w hstop, visit_of_hasStopped m w (hstopped.trans hstop)]
      exact ⟨hnode, rfl, htold⟩
  | false =>
      obtain ⟨hnode, htold⟩ := hupdate n hn k h
      rw [visit_of_not_hasStopped m w hstop, visit_of_not_hasStopped m w (hstopped.trans hstop)]
      exact ⟨hnode, rfl, htold⟩

theorem updateRunning_pruned_of_lt (h : List.Forall₂ (Pruned number) nodes nodes')
    (hnodes : ∀ n ∈ nodes, n.size < bound) (running : List Bool) :
    List.Forall₂ (Pruned number) (updateRunning m w false running nodes).1
        (updateRunning m w false running nodes').1 ∧
      (updateRunning m w false running nodes').2.1 = (updateRunning m w false running nodes).2.1 ∧
      Effect.retold number (updateRunning m w false running nodes).2.2 =
        (updateRunning m w false running nodes').2.2 := by
  induction h generalizing running with
  | nil => cases running <;> simp [updateRunning]
  | @cons n k rest rest' hn hrest ih =>
      cases running with
      | nil => simpa [updateRunning] using ⟨hn, hrest⟩
      | cons flag running =>
          obtain ⟨hafter, hflags, hmore⟩ := ih (fun n hn => hnodes n (by simp [hn])) running
          cases flag with
          | false =>
              rw [updateRunning_resting, updateRunning_resting]
              exact ⟨.cons hn hafter, congrArg (false :: ·) hflags, hmore⟩
          | true =>
              obtain ⟨hnode, hflag, htold⟩ := hn.visit_of_lt hupdate (hnodes n (by simp))
              rw [updateRunning_running, updateRunning_running]
              refine ⟨.cons hnode hafter, by rw [hflag, hflags], ?_⟩
              rw [Effect.retold_append, htold, hmore]

/-- The two walks keep step: where the first comes to a dead child, it leaves it behind and goes on to
the next, and the second does not move. -/
theorem Thinned.walk_of_lt (h : Thinned number (Pruned number) nodes nodes')
    (hnodes : ∀ n ∈ nodes, n.size < bound) (cursor : Cursor) :
    Thinned number (Pruned number) (walk m w cursor nodes).1
        (walk m w (cursor.skip nodes) nodes').1 ∧
      (walk m w (cursor.skip nodes) nodes').2.1 =
        (walk m w cursor nodes).2.1.skip (walk m w cursor nodes).1 ∧
      Effect.retold number (walk m w cursor nodes).2.2 =
        (walk m w (cursor.skip nodes) nodes').2.2 := by
  induction cursor, nodes using Cursor.walkInduction generalizing nodes' with
  | nil cursor =>
      cases h
      rw [Cursor.skip_nil]
      cases cursor <;> simp [walk, Cursor.skip_nil, Thinned.nil]
  | finished next nodes =>
      obtain ⟨next', hnext⟩ := Cursor.skip_finished nodes next
      simpa [walk, hnext] using h
  | shift cursor n rest ih =>
      have hrestSizes : ∀ n ∈ rest, n.size < bound := fun n hn => hnodes n (by simp [hn])
      cases h with
      | @keep _ k _ rest' hable hn hrest =>
          obtain ⟨hafter, hcursor, htold⟩ := ih hrest hrestSizes
          rw [Cursor.skip_shift_able hable, walk_shift, walk_shift, Cursor.skip_shift_able hable]
          exact ⟨.keep hable hn hafter, by rw [hcursor], htold⟩
      | drop hdead hrest =>
          obtain ⟨hafter, hcursor, htold⟩ := ih hrest hrestSizes
          rw [Cursor.skip_shift_dead hdead.able, walk_shift, Cursor.skip_shift_dead hdead.able]
          exact ⟨.drop hdead hafter, hcursor, htold⟩
  | running n rest ih =>
      have hrestSizes : ∀ n ∈ rest, n.size < bound := fun n hn => hnodes n (by simp [hn])
      cases h with
      | @keep _ k _ rest' hable hn hrest =>
          obtain ⟨hafter, hcursor, hmore⟩ := ih hrest hrestSizes
          rw [Cursor.skip_ready] at hafter hcursor hmore
          rw [Cursor.skip_running_able hable, walk_running, walk_running, hn.hasStopped]
          split
          · obtain ⟨hnode, htold⟩ := hn.finish
            have hableAfter : n.finish.1.header.able = true := by rwa [finish_able]
            refine ⟨.keep hableAfter hnode hafter, ?_, ?_⟩
            · rw [Cursor.skip_shift_able hableAfter, hcursor]
            · rw [Effect.retold_append, htold, hmore]
          · obtain ⟨hnode, htold⟩ := hupdate n (hnodes n (by simp)) k hn
            have hableAfter : (n.update m w).1.header.able = true := by simpa using hable
            exact ⟨.keep hableAfter hnode hrest, (Cursor.skip_running_able hableAfter rest).symm,
              htold⟩
      | drop hdead hrest =>
          obtain ⟨hafter, hcursor, hmore⟩ := ih hrest hrestSizes
          rw [Cursor.skip_ready] at hafter hcursor hmore
          obtain ⟨hnode, htold⟩ := hdead.finish
          rw [Cursor.skip_running_dead hdead.able, walk_running, if_pos (hdead.hasStopped w)]
          refine ⟨.drop hnode hafter, ?_, ?_⟩
          · rw [Cursor.skip_shift_dead hnode.able, hcursor]
          · rw [Effect.retold_append, htold, hmore, List.nil_append]
  | ready n rest ih =>
      have hstarted : ∀ c ∈ (n.start w).1 :: rest, c.size < bound := by
        intro c hc
        rcases List.mem_cons.mp hc with rfl | hc
        · rw [start_size]
          exact hnodes n (by simp)
        · exact hnodes c (by simp [hc])
      cases h with
      | @keep _ k _ rest' hable hn hrest =>
          obtain ⟨hnode, htold⟩ := hn.start w
          have hableAfter : (n.start w).1.header.able = true := by rwa [start_able]
          obtain ⟨hafter, hcursor, hmore⟩ :=
            ih (n.start w).1 (.keep hableAfter hnode hrest) hstarted
          rw [Cursor.skip_running_able hableAfter] at hafter hcursor hmore
          rw [Cursor.skip_ready, walk_ready, walk_ready]
          refine ⟨hafter, hcursor, ?_⟩
          rw [Effect.retold_append, htold, hmore]
      | drop hdead hrest =>
          obtain ⟨hnode, htold⟩ := hdead.start w
          obtain ⟨hafter, hcursor, hmore⟩ := ih (n.start w).1 (.drop hnode hrest) hstarted
          rw [Cursor.skip_running_dead hnode.able] at hafter hcursor hmore
          rw [Cursor.skip_ready, walk_ready]
          refine ⟨hafter, hcursor, ?_⟩
          rw [Effect.retold_append, htold, hmore, List.nil_append]

end Update

theorem Pruned.update (h : Pruned number n k) (m : Moment) (w : Surroundings) :
    PrunedAfter number (n.update m w) (k.update m w) := by
  induction hsize : n.size using Nat.strongRecOn generalizing n k with
  | ind size ih =>
  have hupdate : ∀ c : Node, c.size < n.size → ∀ c', Pruned number c c' →
      PrunedAfter number (c.update m w) (c'.update m w) :=
    fun c hc _ hpruned => ih c.size (hsize ▸ hc) hpruned rfl
  have hchildren : ∀ c ∈ n.children, c.size < n.size := fun c hc => size_lt_of_mem_children hc
  have hliveEq := h.header.live
  cases hlive : n.header.live with
  | false =>
      rw [update_of_not_live m w hlive, update_of_not_live m w (hliveEq.trans hlive)]
      exact ⟨h, rfl⟩
  | true =>
    have hlive' := hliveEq.trans hlive
    cases h with
    | @leaf h h' a hh =>
        rw [update_leaf, update_leaf, if_pos (show h.live = true from hlive),
          if_pos (show h'.live = true from hlive')]
        exact ⟨.leaf hh, Effect.retold_writes number _⟩
    | @sequence h h' nodes nodes' cursor cursor' hh below record =>
        obtain ⟨hnodes, hcursor, htold⟩ := below.walk_of_lt hupdate hchildren cursor
        rw [update_sequence m w h hlive, update_sequence m w h' hlive', record hlive]
        exact ⟨.sequence hh hnodes fun _ => hcursor, htold⟩
    | @parallel h h' nodes nodes' running hh below =>
        obtain ⟨hnodes, hflags, htold⟩ := updateRunning_pruned_of_lt hupdate below hchildren running
        rw [update_parallel m w h hlive, update_parallel m w h' hlive', hflags]
        exact ⟨.parallel hh hnodes, htold⟩
    | @vacant h h' running hh =>
        rw [update_vacant, update_vacant]
        exact ⟨.vacant hh, rfl⟩
    | @repeating h h' child child' running hh below =>
        have hchild := hchildren child (by simp [children])
        cases running with
        | true =>
            obtain ⟨hnode, hflag, htold⟩ := below.visit_of_lt hupdate hchild
            rw [update_repeating_running m w h hlive, update_repeating_running m w h' hlive', hflag]
            exact ⟨.repeating hh hnode, htold⟩
        | false =>
            obtain ⟨hstarted, hopening⟩ := below.start w
            obtain ⟨hnode, hflag, htold⟩ := hstarted.visit_of_lt hupdate (by rwa [start_size])
            rw [update_repeating_resting m w h hlive, update_repeating_resting m w h' hlive', hflag]
            refine ⟨.repeating hh hnode, ?_⟩
            rw [Effect.retold_append, hopening, htold]

end Node

end Choreo
