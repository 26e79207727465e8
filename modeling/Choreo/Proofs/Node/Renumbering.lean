import Choreo.Proofs.Node.Visit
import Choreo.Node.Init
import Mathlib.Algebra.Order.BigOperators.Group.List
import Mathlib.Algebra.Order.Group.Nat

/-!
# Renumbering

The number of a node serves to name it in events and for nothing else: an operation on a renumbered
tree is the renumbered operation. In particular a tree that is numbered from another place on runs
like before, and its events are the same up to a constant.
-/

namespace Choreo

def Happening.renumber (f : Nat → Nat) : Happening → Happening
  | started n => started (f n)
  | ended n => ended (f n)
  | faulted n => faulted (f n)
  | h => h

def Effect.renumber (f : Nat → Nat) : Effect → Effect
  | event h => event (h.renumber f)
  | write w => write w

def Header.renumber (f : Nat → Nat) (h : Header) : Header := { h with id := f h.id }

def NodeFault.renumber (f : Nat → Nat) (fault : NodeFault) : NodeFault :=
  { fault with node := f fault.node }

theorem Effect.happenings_renumber (f : Nat → Nat) (effects : List Effect) :
    Effect.happenings (effects.map (Effect.renumber f)) =
      (Effect.happenings effects).map (Happening.renumber f) := by
  rw [happenings, happenings, List.filterMap_map, List.map_filterMap]
  refine List.filterMap_congr fun e _ => ?_
  cases e <;> rfl

theorem Effect.map_renumber_writes (f : Nat → Nat) (writes : List Write) :
    (writes.map Effect.write).map (Effect.renumber f) = writes.map Effect.write := by
  rw [List.map_map]
  rfl

namespace Node

mutual

def renumber (f : Nat → Nat) : Node → Node
  | leaf h a => leaf (h.renumber f) a
  | sequence h children cursor => sequence (h.renumber f) (renumberAll f children) cursor
  | parallel h children running => parallel (h.renumber f) (renumberAll f children) running
  | repeating h none running => repeating (h.renumber f) none running
  | repeating h (some child) running => repeating (h.renumber f) (some (renumber f child)) running

def renumberAll (f : Nat → Nat) : List Node → List Node
  | [] => []
  | n :: rest => renumber f n :: renumberAll f rest

end

def renumberResult (f : Nat → Nat) (result : Node × List Effect) : Node × List Effect :=
  (result.1.renumber f, result.2.map (Effect.renumber f))

variable (f : Nat → Nat)

theorem renumberAll_eq_map (nodes : List Node) : renumberAll f nodes = nodes.map (renumber f) := by
  induction nodes with
  | nil => rfl
  | cons n rest ih => rw [renumberAll, ih, List.map_cons]

theorem renumber_sequence (h : Header) (nodes : List Node) (cursor : Cursor) :
    (sequence h nodes cursor).renumber f =
      sequence (h.renumber f) (nodes.map (renumber f)) cursor := by
  rw [renumber, renumberAll_eq_map]

theorem renumber_parallel (h : Header) (nodes : List Node) (running : List Bool) :
    (parallel h nodes running).renumber f =
      parallel (h.renumber f) (nodes.map (renumber f)) running := by
  rw [renumber, renumberAll_eq_map]

theorem renumber_repeating (h : Header) (child : Option Node) (running : Bool) :
    (repeating h child running).renumber f =
      repeating (h.renumber f) (child.map (renumber f)) running := by
  cases child <;> rfl

@[simp]
theorem renumber_header (n : Node) : (n.renumber f).header = n.header.renumber f := by
  cases n with
  | repeating h child running => rw [renumber_repeating]; rfl
  | _ => rfl

@[simp]
theorem renumber_id (n : Node) : (n.renumber f).id = f n.id := by
  rw [id, renumber_header]
  rfl

theorem renumber_children (n : Node) : (n.renumber f).children = n.children.map (renumber f) := by
  cases n with
  | leaf h a => rfl
  | sequence h nodes cursor => rw [renumber_sequence]; rfl
  | parallel h nodes running => rw [renumber_parallel]; rfl
  | repeating h child running => cases child <;> rfl

theorem renumber_withHeader (n : Node) (h : Header) :
    (n.withHeader h).renumber f = (n.renumber f).withHeader (h.renumber f) := by
  cases n with
  | repeating h child running => cases child <;> rfl
  | _ => rfl

theorem ids_renumber (n : Node) : (n.renumber f).ids = n.ids.map f := by
  induction n with
  | node n ih =>
      rw [ids_eq, ids_eq, renumber_children, renumber_id, List.map_cons, List.map_flatMap,
        List.flatMap_map]
      exact congrArg _ (List.flatMap_congr ih)

@[simp]
theorem isComplete_renumber (n : Node) : (n.renumber f).isComplete = n.isComplete := by
  cases n with
  | repeating h child running => cases child <;> rfl
  | _ => rfl

@[simp]
theorem hasStopped_renumber (w : Surroundings) (n : Node) :
    (n.renumber f).hasStopped w = n.hasStopped w := by
  rw [hasStopped, hasStopped, isOver, isOver, isComplete_renumber, renumber_header]
  rfl

/-! ### The operations -/

theorem start_renumber (w : Surroundings) (n : Node) :
    (n.renumber f).start w = renumberResult f (n.start w) := by
  induction n with
  | node n ih =>
    cases hlive : n.header.opened.live with
    | false =>
        have hlive' : (n.renumber f).header.opened.live = false := by
          rw [renumber_header]
          exact hlive
        rw [start_of_not_live w hlive, start_of_not_live w hlive', renumberResult,
          renumber_withHeader, renumber_header, renumber_id]
        rfl
    | true =>
      cases n with
      | leaf h a =>
          have hlive' : (h.renumber f).opened.live = true := hlive
          rw [renumber, start_leaf w h hlive, start_leaf w _ hlive', renumberResult, List.map_cons,
            Effect.map_renumber_writes]
          rfl
      | sequence h nodes cursor =>
          have hlive' : (h.renumber f).opened.live = true := hlive
          rw [renumber_sequence, start_sequence w h hlive, start_sequence w _ hlive',
            renumberResult, renumber_sequence]
          rfl
      | parallel h nodes running =>
          have hlive' : (h.renumber f).opened.live = true := hlive
          have hnodes : ∀ n ∈ nodes, (n.renumber f).start w = renumberResult f (n.start w) := ih
          have hstarted : (nodes.map (renumber f)).map (fun n => (n.start w).1) =
              (nodes.map fun n => (n.start w).1).map (renumber f) := by
            rw [List.map_map, List.map_map]
            exact List.map_congr_left fun n hn => congrArg Prod.fst (hnodes n hn)
          have heffects : (nodes.map (renumber f)).flatMap (fun n => (n.start w).2) =
              (nodes.flatMap fun n => (n.start w).2).map (Effect.renumber f) := by
            rw [List.flatMap_map, List.map_flatMap]
            exact List.flatMap_congr fun n hn => congrArg Prod.snd (hnodes n hn)
          have hflags : (nodes.map (renumber f)).map (fun _ => true) = nodes.map fun _ => true := by
            rw [List.map_map]
            rfl
          rw [renumber_parallel, start_parallel w h hlive, start_parallel w _ hlive',
            renumberResult, renumber_parallel, hstarted, heffects, hflags]
          rfl
      | repeating h child running =>
          have hlive' : (h.renumber f).opened.live = true := hlive
          rw [renumber_repeating, start_repeating w h hlive, start_repeating w _ hlive',
            renumberResult, renumber_repeating]
          rfl

theorem finishAt_renumber {nodes : List Node}
    (hnodes : ∀ n ∈ nodes, (n.renumber f).finish = renumberResult f n.finish) (cursor : Cursor) :
    finishAt cursor (nodes.map (renumber f)) =
      ((finishAt cursor nodes).1.map (renumber f),
        (finishAt cursor nodes).2.map (Effect.renumber f)) := by
  induction nodes generalizing cursor with
  | nil => cases cursor <;> simp [finishAt]
  | cons n rest ih =>
      have hrest := ih fun k hk => hnodes k (by simp [hk])
      cases cursor using Cursor.headCases with
      | ready => simp [finishAt]
      | running =>
          rw [List.map_cons, finishAt_running, finishAt_running, hnodes n (by simp)]
          rfl
      | finished => simp [finishAt]
      | shift cursor =>
          rw [List.map_cons, finishAt_shift, finishAt_shift, hrest]
          rfl

theorem finishRunning_renumber {nodes : List Node}
    (hnodes : ∀ n ∈ nodes, (n.renumber f).finish = renumberResult f n.finish)
    (running : List Bool) :
    finishRunning running (nodes.map (renumber f)) =
      ((finishRunning running nodes).1.map (renumber f),
        (finishRunning running nodes).2.map (Effect.renumber f)) := by
  induction nodes generalizing running with
  | nil => cases running <;> simp [finishRunning]
  | cons n rest ih =>
      have hrest := ih fun k hk => hnodes k (by simp [hk])
      cases running with
      | nil => simp [finishRunning]
      | cons flag running =>
          rw [List.map_cons, finishRunning_cons, finishRunning_cons, hrest, hnodes n (by simp)]
          cases flag <;> simp [renumberResult]

theorem finish_renumber (n : Node) : (n.renumber f).finish = renumberResult f n.finish := by
  induction n with
  | node n ih =>
    cases hactive : n.header.active with
    | false =>
        have hactive' : (n.renumber f).header.active = false := by
          rw [renumber_header]
          exact hactive
        rw [finish_of_not_active hactive, finish_of_not_active hactive']
        rfl
    | true =>
      have hactive' : (n.renumber f).header.active = true := by
        rw [renumber_header]
        exact hactive
      cases hlive : n.header.live with
      | false =>
          have hlive' : (n.renumber f).header.live = false := by
            rw [renumber_header]
            exact hlive
          rw [finish_of_not_live hactive hlive, finish_of_not_live hactive' hlive', renumberResult,
            renumber_withHeader, renumber_header, renumber_id]
          rfl
      | true =>
        cases n with
        | leaf h a =>
            have hlive' : (h.renumber f).live = true := hlive
            rw [renumber, finish_leaf h hactive hlive, finish_leaf (h.renumber f) hactive hlive',
              renumberResult, List.map_append, Effect.map_renumber_writes]
            rfl
        | sequence h nodes cursor =>
            have hlive' : (h.renumber f).live = true := hlive
            have hnodes : ∀ n ∈ nodes, (n.renumber f).finish = renumberResult f n.finish := ih
            rw [renumber_sequence, finish_sequence h hactive hlive,
              finish_sequence (h.renumber f) hactive hlive', finishAt_renumber f hnodes,
              renumberResult, renumber_sequence, List.map_append]
            rfl
        | parallel h nodes running =>
            have hlive' : (h.renumber f).live = true := hlive
            have hnodes : ∀ n ∈ nodes, (n.renumber f).finish = renumberResult f n.finish := ih
            rw [renumber_parallel, finish_parallel h hactive hlive,
              finish_parallel (h.renumber f) hactive hlive', finishRunning_renumber f hnodes,
              renumberResult, renumber_parallel, List.map_append]
            rfl
        | repeating h child running =>
            have hlive' : (h.renumber f).live = true := hlive
            rcases child with _ | child
            · rw [renumber_repeating, Option.map_none, finish_vacant h hactive,
                finish_vacant (h.renumber f) hactive]
              rfl
            cases running with
            | true =>
                have hchild := ih child (by simp [children])
                rw [renumber_repeating, Option.map_some, finish_repeating_running h hactive hlive,
                  finish_repeating_running (h.renumber f) hactive hlive', hchild, renumberResult,
                  renumberResult, renumber_repeating, List.map_append]
                rfl
            | false =>
                rw [renumber_repeating, Option.map_some, finish_repeating_resting h hactive,
                  finish_repeating_resting (h.renumber f) hactive]
                rfl

/-- A start leaves what a tree shows apart from its run: any function that looks only at the kinds, at
the fixed parts of the headers, and at its own values on the children. -/
theorem start_eq {α : Type} (f : Node → α)
    (hf : ∀ n k : Node, n.kind = k.kind → n.header.closed = k.header.closed →
      n.children.map f = k.children.map f → f n = f k)
    (w : Surroundings) (n : Node) : f (n.start w).1 = f n := by
  induction n with
  | node n ih =>
    refine hf _ _ (start_kind w n) (by rw [start_header]; rfl) ?_
    cases hlive : n.header.opened.live with
    | false => rw [start_of_not_live w hlive]; cases n <;> rfl
    | true =>
      cases n with
      | leaf h a => rw [start_leaf w h hlive]; rfl
      | sequence h nodes cursor => rw [start_sequence w h hlive]; rfl
      | parallel h nodes running =>
          rw [start_parallel w h hlive]
          change (nodes.map fun n => (n.start w).1).map f = nodes.map f
          rw [List.map_map]
          exact List.map_congr_left ih
      | repeating h child running => rw [start_repeating w h hlive]; rfl

theorem start_size (w : Surroundings) (n : Node) : (n.start w).1.size = n.size :=
  start_eq size (fun n k _ _ hchildren => by rw [size_eq, size_eq, hchildren]) w n

section Update

variable {m : Moment} {w : Surroundings} {bound : Nat}
  (hupdate : ∀ k : Node, k.size < bound →
    (k.renumber f).update m w = renumberResult f (k.update m w))
include hupdate

theorem visit_renumber_of_lt {n : Node} (hn : n.size < bound) :
    (n.renumber f).visit m w = ((n.visit m w).1.renumber f, (n.visit m w).2.1,
      (n.visit m w).2.2.map (Effect.renumber f)) := by
  have hstopped := n.hasStopped_renumber f w
  cases hstop : n.hasStopped w with
  | true =>
      rw [hstop] at hstopped
      rw [visit_of_hasStopped m w hstop, visit_of_hasStopped m w hstopped, finish_renumber]
      rfl
  | false =>
      rw [hstop] at hstopped
      rw [visit_of_not_hasStopped m w hstop, visit_of_not_hasStopped m w hstopped, hupdate n hn]
      rfl

theorem updateRunning_renumber_of_lt {nodes : List Node} (hnodes : ∀ n ∈ nodes, n.size < bound)
    (running : List Bool) :
    updateRunning m w false running (nodes.map (renumber f)) =
      ((updateRunning m w false running nodes).1.map (renumber f),
        (updateRunning m w false running nodes).2.1,
        (updateRunning m w false running nodes).2.2.map (Effect.renumber f)) := by
  induction nodes generalizing running with
  | nil => cases running <;> simp [updateRunning]
  | cons n rest ih =>
      have hrest := ih fun k hk => hnodes k (by simp [hk])
      cases running with
      | nil => simp [updateRunning]
      | cons flag running =>
          cases flag with
          | false =>
              rw [List.map_cons, updateRunning_resting, updateRunning_resting, hrest]
              rfl
          | true =>
              rw [List.map_cons, updateRunning_running, updateRunning_running, hrest,
                visit_renumber_of_lt f hupdate (hnodes n (by simp)), List.map_append]
              rfl

theorem walk_renumber_of_lt {nodes : List Node} (hnodes : ∀ n ∈ nodes, n.size < bound)
    (cursor : Cursor) :
    walk m w cursor (nodes.map (renumber f)) =
      ((walk m w cursor nodes).1.map (renumber f), (walk m w cursor nodes).2.1,
        (walk m w cursor nodes).2.2.map (Effect.renumber f)) := by
  induction cursor, nodes using Cursor.walkInduction with
  | nil cursor => cases cursor <;> simp [walk]
  | finished next nodes => simp [walk]
  | shift cursor n rest ih =>
      have hrest := ih fun k hk => hnodes k (by simp [hk])
      rw [List.map_cons, walk_shift, walk_shift, hrest]
      rfl
  | running n rest ih =>
      have hrest := ih fun k hk => hnodes k (by simp [hk])
      rw [List.map_cons, walk_running, walk_running, hasStopped_renumber]
      split
      · rw [finish_renumber, hrest, List.map_append]
        rfl
      · rw [hupdate n (hnodes n (by simp))]
        rfl
  | ready n rest ih =>
      have hstarted : ∀ k ∈ (n.start w).1 :: rest, k.size < bound := by
        intro k hk
        rcases List.mem_cons.mp hk with rfl | hk
        · rw [start_size]
          exact hnodes n (by simp)
        · exact hnodes k (by simp [hk])
      have hrunning := ih (n.start w).1 hstarted
      rw [List.map_cons] at hrunning
      rw [List.map_cons, walk_ready, walk_ready, start_renumber, renumberResult, hrunning,
        List.map_append]

end Update

theorem update_renumber (m : Moment) (w : Surroundings) (n : Node) :
    (n.renumber f).update m w = renumberResult f (n.update m w) := by
  -- A child may be updated in the state in which a start has left it, so the induction is on sizes.
  induction hsize : n.size using Nat.strongRecOn generalizing n with
  | ind size ih =>
  have hupdate : ∀ k : Node, k.size < n.size →
      (k.renumber f).update m w = renumberResult f (k.update m w) :=
    fun k hk => ih k.size (hsize ▸ hk) k rfl
  have hchildren : ∀ c ∈ n.children, c.size < n.size := fun c hc => size_lt_of_mem_children hc
  cases hlive : n.header.live with
  | false =>
      have hlive' : (n.renumber f).header.live = false := by
        rw [renumber_header]
        exact hlive
      rw [update_of_not_live m w hlive, update_of_not_live m w hlive']
      rfl
  | true =>
    cases n with
    | leaf h a =>
        have hlive' : (h.renumber f).live = true := hlive
        rw [renumber, update_leaf, update_leaf, if_pos hlive', if_pos (show h.live = true from hlive),
          renumberResult, Effect.map_renumber_writes]
        rfl
    | sequence h nodes cursor =>
        have hlive' : (h.renumber f).live = true := hlive
        have hnodes : ∀ n ∈ nodes, n.size < (sequence h nodes cursor).size := hchildren
        rw [renumber_sequence, update_sequence m w h hlive, update_sequence m w _ hlive',
          walk_renumber_of_lt f hupdate hnodes, renumberResult, renumber_sequence]
    | parallel h nodes running =>
        have hlive' : (h.renumber f).live = true := hlive
        have hnodes : ∀ n ∈ nodes, n.size < (parallel h nodes running).size := hchildren
        rw [renumber_parallel, update_parallel m w h hlive, update_parallel m w _ hlive',
          updateRunning_renumber_of_lt f hupdate hnodes, renumberResult, renumber_parallel]
    | repeating h child running =>
        have hlive' : (h.renumber f).live = true := hlive
        rcases child with _ | child
        · rw [renumber_repeating, Option.map_none, update_vacant, update_vacant]
          rfl
        have hchild := hchildren child (by simp [children])
        cases running with
        | true =>
            rw [renumber_repeating, Option.map_some, update_repeating_running m w h hlive,
              update_repeating_running m w _ hlive', visit_renumber_of_lt f hupdate hchild,
              renumberResult, renumber_repeating]
            rfl
        | false =>
            rw [renumber_repeating, Option.map_some, update_repeating_resting m w h hlive,
              update_repeating_resting m w _ hlive', start_renumber, renumberResult,
              visit_renumber_of_lt f hupdate (by rwa [start_size]), renumberResult,
              renumber_repeating, List.map_append]
            rfl

theorem visit_renumber (m : Moment) (w : Surroundings) (n : Node) :
    (n.renumber f).visit m w = ((n.visit m w).1.renumber f, (n.visit m w).2.1,
      (n.visit m w).2.2.map (Effect.renumber f)) :=
  visit_renumber_of_lt f (fun k _ => update_renumber f m w k) (Nat.lt_succ_self n.size)

theorem walk_renumber (m : Moment) (w : Surroundings) (nodes : List Node) (cursor : Cursor) :
    walk m w cursor (nodes.map (renumber f)) =
      ((walk m w cursor nodes).1.map (renumber f), (walk m w cursor nodes).2.1,
        (walk m w cursor nodes).2.2.map (Effect.renumber f)) := by
  have hnodes : ∀ n ∈ nodes, n.size < (nodes.map size).sum + 1 := fun n hn => size_lt_sum_of_mem hn
  exact walk_renumber_of_lt f (fun k _ => update_renumber f m w k) hnodes cursor

/-! ### Numbering from another place on -/

/-- A node and what was found wrong with it, `offset` numbers further on. -/
def raise (offset : Nat) (result : Node × List NodeFault) : Node × List NodeFault :=
  (result.1.renumber (· + offset), result.2.map (NodeFault.renumber (· + offset)))

theorem initAll_raise (w : Surroundings) {nodes : List Node} {offset : Nat}
    (hnodes : ∀ n ∈ nodes, ∀ first, n.init w (first + offset) = raise offset (n.init w first))
    (first : Nat) :
    initAll w (first + offset) nodes =
      ((initAll w first nodes).1.map (renumber (· + offset)),
        (initAll w first nodes).2.map (NodeFault.renumber (· + offset))) := by
  induction nodes generalizing first with
  | nil => rfl
  | cons n rest ih =>
      have hrest := ih (fun k hk => hnodes k (by simp [hk])) (first + n.size)
      have hnext : first + n.size + offset = first + offset + n.size := by omega
      rw [initAll, initAll, hnodes n (by simp), ← hnext, hrest, raise, List.map_cons,
        List.map_append]

theorem init_raise (w : Surroundings) (n : Node) (first offset : Nat) :
    n.init w (first + offset) = raise offset (n.init w first) := by
  induction n generalizing first with
  | node n ih =>
    have hnext : first + offset + 1 = first + 1 + offset := by omega
    cases n with
    | leaf h a =>
        rw [init, init]
        cases a.init w <;> rfl
    | sequence h nodes cursor =>
        have hnodes := initAll_raise w ih (first + 1)
        change initAll w (first + 1 + offset) nodes = _ at hnodes
        rw [init, init, hnext, hnodes, raise, renumber_sequence]
        rfl
    | parallel h nodes running =>
        have hnodes := initAll_raise w ih (first + 1)
        change initAll w (first + 1 + offset) nodes = _ at hnodes
        rw [init, init, hnext, hnodes, raise, renumber_parallel]
        rfl
    | repeating h child running =>
        cases child with
        | none => rfl
        | some child =>
            have hchild := ih child (by simp [children]) (first + 1)
            rw [init, init, hnext, hchild]
            rfl

end Node

end Choreo
