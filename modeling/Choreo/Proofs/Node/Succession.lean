import Choreo.Proofs.Node.Siblings
import Choreo.Proofs.Script.Forest
import Mathlib.Data.List.Induction

/-!
# The order of a sequence

The children of a sequence have one turn each, in the order in which they were authored. So of their
starts and ends it is known beforehand which comes next, and the cursor tells how many of them have
come: `plan` lists them all, and a trace follows it as long as each of them that it tells of is the next
one of the plan. Every operation on a tree does so for every sequence in the tree.
-/

namespace Choreo

/-- How many starts and ends of children a sequence has seen. -/
def Cursor.turns : Cursor → Nat
  | ready next | finished next => 2 * next
  | running index => 2 * index + 1

@[simp]
theorem Cursor.turns_shift (cursor : Cursor) : cursor.shift.turns = cursor.turns + 2 := by
  cases cursor <;> simp [shift, turns] <;> omega

/-- A trace in which the starts and ends that are planned come in order, as long as a node is open. The
state is what has been told of them since the node was started. -/
inductive Follows (self : Nat) (plan : List Happening) :
    Option (List Happening) → List Happening → Option (List Happening) → Prop
  | nil (told : Option (List Happening)) : Follows self plan told [] told
  | opens {trace : List Happening} {final : Option (List Happening)}
      (next : Follows self plan (some []) trace final) :
      Follows self plan none (.started self :: trace) final
  | closes {told trace : List Happening} {final : Option (List Happening)}
      (next : Follows self plan none trace final) :
      Follows self plan (some told) (.ended self :: trace) final
  | turn {x : Happening} {told trace : List Happening} {final : Option (List Happening)}
      (hx : x ∈ plan) (hplan : told ++ [x] <+: plan)
      (next : Follows self plan (some (told ++ [x])) trace final) :
      Follows self plan (some told) (x :: trace) final
  | aside {x : Happening} {told final : Option (List Happening)} {trace : List Happening}
      (hself : x ≠ .started self ∧ x ≠ .ended self) (hx : x ∉ plan)
      (next : Follows self plan told trace final) : Follows self plan told (x :: trace) final

namespace Follows

variable {self : Nat} {plan trace more : List Happening}
  {first middle final : Option (List Happening)}

theorem append (h : Follows self plan first trace middle)
    (hmore : Follows self plan middle more final) :
    Follows self plan first (trace ++ more) final := by
  induction h with
  | nil => exact hmore
  | opens _ ih => exact .opens (ih hmore)
  | closes _ ih => exact .closes (ih hmore)
  | turn hx hplan _ ih => exact .turn hx hplan (ih hmore)
  | aside hself hx _ ih => exact .aside hself hx (ih hmore)

theorem split (trace more : List Happening) (h : Follows self plan first (trace ++ more) final) :
    ∃ middle, Follows self plan first trace middle ∧ Follows self plan middle more final := by
  induction trace generalizing first with
  | nil => exact ⟨first, .nil _, h⟩
  | cons x rest ih =>
      cases h with
      | opens next => exact (ih next).imp fun _ h => ⟨.opens h.1, h.2⟩
      | closes next => exact (ih next).imp fun _ h => ⟨.closes h.1, h.2⟩
      | turn hx hplan next => exact (ih next).imp fun _ h => ⟨.turn hx hplan h.1, h.2⟩
      | aside hself hx next => exact (ih next).imp fun _ h => ⟨.aside hself hx h.1, h.2⟩

theorem asides (h : ∀ x ∈ trace, (x ≠ .started self ∧ x ≠ .ended self) ∧ x ∉ plan) :
    Follows self plan first trace first := by
  induction trace with
  | nil => exact .nil _
  | cons x rest ih =>
      obtain ⟨hself, hx⟩ := h x (by simp)
      exact .aside hself hx (ih fun y hy => h y (by simp [hy]))

/-- While the node stays open, what a trace tells of the plan may be gathered at once. -/
theorem of_filter {told : List Happening}
    (hself : ∀ x ∈ trace, x ≠ .started self ∧ x ≠ .ended self)
    (hplan : told ++ trace.filter (· ∈ plan) <+: plan) :
    Follows self plan (some told) trace (some (told ++ trace.filter (· ∈ plan))) := by
  induction trace generalizing told with
  | nil => simpa using Follows.nil (some told)
  | cons x rest ih =>
      have hrest : ∀ y ∈ rest, y ≠ .started self ∧ y ≠ .ended self :=
        fun y hy => hself y (by simp [hy])
      by_cases hx : x ∈ plan
      · rw [List.filter_cons_of_pos (by simpa using hx), List.append_cons] at hplan ⊢
        exact .turn hx ((List.prefix_append _ _).trans hplan) (ih hrest hplan)
      · rw [List.filter_cons_of_neg (by simpa using hx)] at hplan ⊢
        exact .aside (hself x (by simp)) hx (ih hrest hplan)

theorem told_of_open {told : List Happening} (hplan : told <+: plan)
    (h : Follows self plan (some told) trace final) (hopen : .ended self ∉ trace) :
    final = some (told ++ trace.filter (· ∈ plan)) ∧ told ++ trace.filter (· ∈ plan) <+: plan := by
  induction trace generalizing told with
  | nil =>
      cases h
      simpa using hplan
  | cons x rest ih =>
      have hrest : .ended self ∉ rest := fun hmem => hopen (by simp [hmem])
      cases h with
      | closes next => simp at hopen
      | turn hx hmore next =>
          rw [List.filter_cons_of_pos (by simpa using hx), List.append_cons]
          exact ih hmore next hrest
      | aside hself hx next =>
          rw [List.filter_cons_of_neg (by simpa using hx)]
          exact ih hplan next hrest

/-- In a window of the node, what is told of the plan is a beginning of the plan. -/
theorem window {before during after : List Happening} (hself : .started self ∉ plan)
    (h : Follows self plan first (before ++ .started self :: (during ++ after)) final)
    (hopen : .ended self ∉ during) :
    during.filter (· ∈ plan) <+: plan ∧
      (after = [] → final = some (during.filter (· ∈ plan))) := by
  obtain ⟨middle, _, hwindow⟩ := split before _ h
  cases hwindow with
  | turn hx _ _ => exact absurd hx hself
  | aside hne _ _ => exact absurd rfl hne.1
  | opens next =>
      obtain ⟨last, hduring, hafter⟩ := split during after next
      obtain ⟨hlast, hbegins⟩ := told_of_open List.nil_prefix hduring hopen
      refine ⟨hbegins, ?_⟩
      rintro rfl
      cases hafter
      exact hlast

/-- A node that is open has been started, and not ended since. -/
theorem exists_window {told : List Happening} (hself : .ended self ∉ plan)
    (h : Follows self plan none trace (some told)) :
    ∃ before during, trace = before ++ .started self :: during ∧ .ended self ∉ during ∧
      during.filter (· ∈ plan) = told := by
  induction trace using List.reverseRecOn generalizing told with
  | nil => cases h
  | append_singleton rest x ih =>
      obtain ⟨middle, hrest, hx⟩ := split rest [x] h
      cases hx with
      | opens next =>
          cases next
          exact ⟨rest, [], rfl, by simp, rfl⟩
      | closes next => cases next
      | @turn _ before _ _ hx _ next =>
          cases next
          obtain ⟨start, during, rfl, hopen, htold⟩ := ih hrest
          have hne : x ≠ .ended self := fun heq => hself (heq ▸ hx)
          refine ⟨start, during ++ [x], by simp, ?_, ?_⟩
          · simpa [hopen] using hne.symm
          · simp [List.filter_append, htold, hx]
      | aside hne hx next =>
          cases next
          obtain ⟨start, during, rfl, hopen, htold⟩ := ih hrest
          refine ⟨start, during ++ [x], by simp, ?_, ?_⟩
          · simpa [hopen] using hne.2.symm
          · simp [List.filter_append, htold, hx]

end Follows

namespace Node

/-- The starts and ends of the children of a sequence, in the order in which they are to come. -/
def plan (nodes : List Node) : List Happening := nodes.flatMap fun c => [.started c.id, .ended c.id]

/-- What a sequence that is open has told of its plan. -/
def told : Node → Option (List Happening)
  | sequence h nodes cursor =>
    if h.active then some (if h.live then (plan nodes).take cursor.turns else []) else none
  | _ => none

theorem plan_cons (n : Node) (rest : List Node) :
    plan (n :: rest) = .started n.id :: .ended n.id :: plan rest := rfl

theorem plan_length (nodes : List Node) : (plan nodes).length = 2 * nodes.length := by
  induction nodes with
  | nil => rfl
  | cons n rest ih =>
      rw [plan_cons, List.length_cons, List.length_cons, ih, List.length_cons]
      omega

theorem node_of_mem_plan {nodes : List Node} {x : Happening} (hx : x ∈ plan nodes) :
    ∃ c ∈ nodes, x.node = some c.id := by
  obtain ⟨c, hc, hx⟩ := List.mem_flatMap.mp hx
  rcases List.mem_pair.mp hx with rfl | rfl <;> exact ⟨c, hc, rfl⟩

theorem plan_congr {nodes nodes' : List Node} (h : nodes'.map id = nodes.map id) :
    plan nodes' = plan nodes := by
  have hplan : ∀ nodes : List Node,
      plan nodes = (nodes.map id).flatMap fun i => [.started i, .ended i] := fun nodes => by
    rw [List.flatMap_map]
    rfl
  rw [hplan, hplan, h]

theorem plan_of_ids {nodes nodes' : List Node} (h : nodes'.map ids = nodes.map ids) :
    plan nodes' = plan nodes := by
  have hhead : ∀ nodes : List Node, (nodes.map ids).map List.head? = (nodes.map id).map some := by
    intro nodes
    simp only [List.map_map]
    exact List.map_congr_left fun n _ => by simp [ids_eq]
  refine plan_congr (List.map_injective_iff.mpr (fun _ _ => Option.some.inj) ?_)
  rw [← hhead, ← hhead, h]

/-! ### One sequence

A child is planned if the plan lists its start and end, and nothing that happens below it. -/

structure Planned (plan : List Happening) (n : Node) : Prop where
  sound : n.Sound
  started : .started n.id ∈ plan
  ended : .ended n.id ∈ plan
  below : ∀ x : Happening, x ∈ plan → ∀ i ∈ n.children.flatMap ids, x.node ≠ some i

variable {m : Moment} {w : Surroundings} {p : List Happening} {n : Node}

theorem Planned.of_local {result : Node × List Effect} (h : n.Planned p) (hlocal : Local n result) :
    result.1.Planned p := by
  have hids : result.1.id = n.id ∧ result.1.children.flatMap ids = n.children.flatMap ids := by
    simpa [ids_eq] using hlocal.ids
  refine ⟨hlocal.sound, ?_, ?_, ?_⟩
  · rw [hids.1]
    exact h.started
  · rw [hids.1]
    exact h.ended
  · rw [hids.2]
    exact h.below

theorem Planned.filter_below (h : n.Planned p) {effects : List Effect} {result : List Node}
    (turns : Turns m w n.children effects result) :
    (Effect.happenings effects).filter (· ∈ p) = [] := by
  obtain ⟨hcourse, _⟩ := Script.course_of_turns turns h.sound.children
  rw [List.filter_eq_nil_iff]
  intro x hx
  obtain ⟨i, hi, hnode⟩ := hcourse.mem_ids x hx
  simpa using fun hplan => h.below x hplan i hi hnode

theorem Planned.filter_start (h : n.Planned p) (hrest : n.header.active = false) :
    (Effect.happenings (n.start w).2).filter (· ∈ p) = [.started n.id] := by
  -- The moment plays no part in a start.
  obtain ⟨effects, heffects, turns, _⟩ := start_turns ⟨0, 0⟩ w (h.sound.children_rest hrest)
  have hbelow := h.filter_below turns
  have hstart : Effect.happenings (n.start w).2 = .started n.id :: Effect.happenings effects := by
    rw [heffects, happenings_append, ← List.singleton_append, happenings_append, happenings_writes]
    rfl
  rw [hstart, List.filter_cons_of_pos (by simpa using h.started), hbelow]

theorem Planned.filter_update (h : n.Planned p) :
    (Effect.happenings (n.update m w).2).filter (· ∈ p) = [] := by
  obtain ⟨effects, heffects, turns, _⟩ := update_turns m w h.sound.upright.inOrder
  have hupdate : Effect.happenings (n.update m w).2 = Effect.happenings effects := by
    rw [heffects, happenings_append, happenings_writes, List.nil_append]
  rw [hupdate, h.filter_below turns]

theorem Planned.filter_finish (h : n.Planned p) (hactive : n.header.active = true) :
    (Effect.happenings n.finish.2).filter (· ∈ p) = [.ended n.id] := by
  -- The moment and the surroundings play no part in an end.
  obtain ⟨effects, heffects, turns, _⟩ :=
    finish_turns ⟨0, 0⟩ {} hactive h.sound.upright.inOrder
  have hfinish : Effect.happenings n.finish.2 = Effect.happenings effects ++ [.ended n.id] := by
    rw [heffects, happenings_append, happenings_append, happenings_writes, List.nil_append]
    rfl
  have hended : [Happening.ended n.id].filter (· ∈ p) = [.ended n.id] :=
    List.filter_cons_of_pos (by simpa using h.ended)
  rw [hfinish, List.filter_append, h.filter_below turns, hended, List.nil_append]

/-- A tick of a sequence tells as much of the plan as the cursor moves on. -/
theorem told_walk {cursor : Cursor} {nodes : List Node} (hmarks : cursor.Marks nodes)
    (hplanned : ∀ n ∈ nodes, n.Planned p) :
    (plan nodes).take (walk m w cursor nodes).2.1.turns =
      (plan nodes).take cursor.turns ++
        (Effect.happenings (walk m w cursor nodes).2.2).filter (· ∈ p) := by
  have hnil : (Effect.happenings []).filter (· ∈ p) = [] := rfl
  induction cursor, nodes using Cursor.walkInduction with
  | nil cursor => cases cursor <;> simp [walk, plan, hnil]
  | finished next nodes => simp [walk, hnil]
  | shift cursor n rest ih =>
      obtain ⟨_, hmarks⟩ := (cursor.marks_shift n rest).mp hmarks
      have hrest := ih hmarks fun k hk => hplanned k (by simp [hk])
      rw [walk_shift, Cursor.turns_shift, Cursor.turns_shift, plan_cons]
      simp [hrest]
  | running n rest ih =>
      obtain ⟨hactive, hrest⟩ := hmarks
      have hn := hplanned n (by simp)
      rw [walk_running]
      cases hstop : n.hasStopped w with
      | true =>
          have hlater := ih ((Cursor.marks_ready rest).mpr hrest)
            fun k hk => hplanned k (by simp [hk])
          have hturns : (Cursor.ready 0).turns = 0 := rfl
          rw [hturns, List.take_zero, List.nil_append] at hlater
          simp only [↓reduceIte, Cursor.turns_shift, plan_cons, happenings_append,
            List.filter_append, hn.filter_finish hactive, ← hlater]
          rfl
      | false => simp [hn.filter_update]
  | ready n rest ih =>
      rw [Cursor.marks_ready] at hmarks
      have hn := hplanned n (by simp)
      have hrest : n.header.active = false := hmarks n (by simp)
      have hstarted : (n.start w).1.header.active = true := by simp [Header.opened]
      have hplan : plan ((n.start w).1 :: rest) = plan (n :: rest) := by
        rw [plan_cons, plan_cons, id, start_header]
        rfl
      have hlater := ih (n.start w).1 ⟨hstarted, fun c hc => hmarks c (by simp [hc])⟩ <| by
        intro k hk
        rcases List.mem_cons.mp hk with rfl | hk
        · exact hn.of_local (local_start hn.sound hrest w)
        · exact hplanned k (by simp [hk])
      rw [hplan] at hlater
      rw [walk_ready, hlater, happenings_append, List.filter_append, hn.filter_start hrest]
      rfl

theorem told_finishAt {cursor : Cursor} {nodes : List Node} (hmarks : cursor.Marks nodes)
    (hplanned : ∀ n ∈ nodes, n.Planned p) :
    (plan nodes).take cursor.halt.turns =
      (plan nodes).take cursor.turns ++
        (Effect.happenings (finishAt cursor nodes).2).filter (· ∈ p) := by
  have hnil : (Effect.happenings []).filter (· ∈ p) = [] := rfl
  induction nodes generalizing cursor with
  | nil => cases cursor <;> simp [finishAt, plan, hnil]
  | cons n rest ih =>
      cases cursor using Cursor.headCases with
      | ready => simp [finishAt, Cursor.halt, hnil]
      | finished next => simp [finishAt, Cursor.halt, hnil]
      | running =>
          rw [finishAt_running, (hplanned n (by simp)).filter_finish hmarks.1]
          rfl
      | shift cursor =>
          obtain ⟨_, hmarks⟩ := (cursor.marks_shift n rest).mp hmarks
          have hrest := ih hmarks fun k hk => hplanned k (by simp [hk])
          have hhalt : cursor.shift.halt = cursor.halt.shift := by cases cursor <;> rfl
          rw [finishAt_shift, hhalt, Cursor.turns_shift, Cursor.turns_shift, plan_cons]
          simp [hrest]

theorem planned_of_nodup {nodes : List Node} (hsound : ∀ n ∈ nodes, n.Sound)
    (hids : (nodes.flatMap ids).Nodup) : ∀ n ∈ nodes, n.Planned (plan nodes) := by
  intro n hn
  have hmem : ∀ x ∈ [Happening.started n.id, .ended n.id], x ∈ plan nodes :=
    fun x hx => List.mem_flatMap.mpr ⟨n, hn, hx⟩
  refine ⟨hsound n hn, hmem _ (by simp), hmem _ (by simp), ?_⟩
  intro x hx i hi hnode
  obtain ⟨k, hk, hid⟩ := node_of_mem_plan hx
  obtain rfl : k.id = i := Option.some.inj (hid.symm.trans hnode)
  obtain ⟨left, right, rfl⟩ := List.append_of_mem hn
  obtain ⟨hnIds, _, hapart⟩ := nodup_split hids
  by_cases hkn : k = n
  · exact (nodup_below hnIds).1 (hkn ▸ hi)
  · have hother : k ∈ left ++ right := by simpa [hkn] using hk
    exact hapart _ (mem_ids_of_mem_below hi) (List.mem_flatMap.mpr ⟨k, hother, k.id_mem_ids⟩)

/-! ### Every sequence of a tree -/

/-- What becomes of a node while a trace is told: a sequence follows its plan. -/
structure Continues (trace : List Happening) (before after : Node) : Prop where
  kind : after.kind = before.kind
  id : after.id = before.id
  plan : plan after.children = plan before.children
  follows : before.kind = .sequence →
    Follows before.id (Node.plan before.children) before.told trace after.told

namespace Continues

variable {trace more : List Happening} {k k' k'' : Node}

theorem trans (h : Continues trace k k') (hmore : Continues more k' k'') :
    Continues (trace ++ more) k k'' := by
  refine ⟨hmore.kind.trans h.kind, hmore.id.trans h.id, hmore.plan.trans h.plan, fun hkind => ?_⟩
  have hlater := hmore.follows (h.kind.trans hkind)
  rw [h.id, h.plan] at hlater
  exact (h.follows hkind).append hlater

/-- Nothing that happens elsewhere concerns a node. -/
theorem of_elsewhere (h : ∀ x ∈ trace, ∀ i ∈ k.ids, x.node ≠ some i) : Continues trace k k := by
  refine ⟨rfl, rfl, rfl, fun _ => .asides fun x hx => ⟨⟨?_, ?_⟩, fun hplan => ?_⟩⟩
  · rintro rfl
    exact h _ hx _ k.id_mem_ids rfl
  · rintro rfl
    exact h _ hx _ k.id_mem_ids rfl
  · obtain ⟨c, hc, hnode⟩ := node_of_mem_plan hplan
    have hbelow : c.id ∈ k.children.flatMap ids := List.mem_flatMap.mpr ⟨c, hc, c.id_mem_ids⟩
    exact h x hx _ (mem_ids_of_mem_below hbelow) hnode

end Continues

/-- Every node that is there after an operation has been there before. -/
def Abides (nodes : List Node) (effects : List Effect) (result : List Node) : Prop :=
  ∀ k' ∈ result.flatMap preorder, ∃ k ∈ nodes.flatMap preorder,
    Continues (Effect.happenings effects) k k'

theorem exists_sequence {n : Node} (hkind : n.kind = .sequence) :
    ∃ h nodes cursor, n = sequence h nodes cursor := by
  cases n with
  | leaf h a => cases a <;> cases hkind
  | sequence h nodes cursor => exact ⟨h, nodes, cursor, rfl⟩
  | parallel h nodes running => cases hkind
  | repeating h child running => cases hkind

theorem sublist_ids_of_mem_preorder {n k : Node} (hk : k ∈ n.preorder) :
    k.ids.Sublist n.ids := by
  induction n with
  | node n ih =>
      rw [preorder_eq] at hk
      rcases List.mem_cons.mp hk with rfl | hk
      · exact List.Sublist.refl _
      · obtain ⟨c, hc, hk⟩ := List.mem_flatMap.mp hk
        rw [ids_eq n, List.flatMap_def]
        exact ((ih c hc hk).trans (List.sublist_flatten_of_mem (List.mem_map_of_mem hc))).cons _

theorem Abides.trans {nodes middle result : List Node} {effects more : List Effect}
    (h : Abides nodes effects middle) (hmore : Abides middle more result) :
    Abides nodes (effects ++ more) result := by
  intro k'' hk''
  obtain ⟨k', hk', hlater⟩ := hmore k'' hk''
  obtain ⟨k, hk, hfirst⟩ := h k' hk'
  rw [happenings_append]
  exact ⟨k, hk, hfirst.trans hlater⟩

/-- A turn that keeps the nodes of its own tree keeps those of the forest. -/
theorem Abides.split {before after : List Node} {result : Node × List Effect}
    (h : Abides [n] result.2 [result.1]) (hlocal : Local n result)
    (hids : ((before ++ n :: after).flatMap ids).Nodup) :
    Abides (before ++ n :: after) result.2 (before ++ result.1 :: after) := by
  intro k' hk'
  obtain ⟨_, _, hapart⟩ := nodup_split hids
  rcases mem_split.mp hk' with hk' | hk'
  · obtain ⟨k, hk, hcontinues⟩ := h k' (by simpa using hk')
    exact ⟨k, mem_split.mpr (Or.inl (by simpa using hk)), hcontinues⟩
  · refine ⟨k', mem_split.mpr (Or.inr hk'), .of_elsewhere fun x hx i hi hnode => ?_⟩
    obtain ⟨j, hj, hjnode⟩ := hlocal.about x hx
    obtain rfl : j = i := Option.some.inj (hjnode.symm.trans hnode)
    obtain ⟨c, hc, hk'⟩ := List.mem_flatMap.mp hk'
    exact hapart j hj (List.mem_flatMap.mpr ⟨c, hc, (sublist_ids_of_mem_preorder hk').subset hi⟩)

/-- An operation keeps the nodes of a tree if it does so with the node itself and with those below. -/
theorem abides_operation {result : Node × List Effect} {inner : List Effect}
    {opening closing : List Happening} (hids : n.ids.Nodup)
    (hown : Continues (Effect.happenings result.2) n result.1)
    (heffects : Effect.happenings result.2 = opening ++ Effect.happenings inner ++ closing)
    (hself : ∀ x ∈ opening ++ closing, x.node = some n.id)
    (hsame : result.1.children.map ids = n.children.map ids)
    (hbelow : Abides n.children inner result.1.children) : Abides [n] result.2 [result.1] := by
  have hnone : ∀ nodes : List Node, nodes.map ids = n.children.map ids →
      ∀ k ∈ nodes.flatMap preorder, n.id ∉ k.ids := by
    intro nodes hnodes k hk hid
    obtain ⟨c, hc, hk⟩ := List.mem_flatMap.mp hk
    refine (nodup_below hids).1 ?_
    rw [List.flatMap_def, ← hnodes, ← List.flatMap_def]
    exact List.mem_flatMap.mpr ⟨c, hc, (sublist_ids_of_mem_preorder hk).subset hid⟩
  have helsewhere : ∀ k : Node, n.id ∉ k.ids → ∀ trace : List Happening,
      trace ⊆ opening ++ closing → Continues trace k k := by
    intro k hk trace htrace
    refine .of_elsewhere fun x hx i hi hnode => ?_
    obtain rfl : n.id = i := Option.some.inj ((hself x (htrace hx)).symm.trans hnode)
    exact hk hi
  intro k' hk'
  rw [List.flatMap_singleton, preorder_eq] at hk'
  rw [List.flatMap_singleton, preorder_eq]
  rcases List.mem_cons.mp hk' with rfl | hk'
  · exact ⟨n, by simp, hown⟩
  · obtain ⟨k, hk, hcontinues⟩ := hbelow k' hk'
    have hfirst := helsewhere k (hnone _ rfl k hk) opening (by simp)
    have hlast := helsewhere k' (hnone _ hsame k' hk') closing (by simp)
    rw [heffects]
    exact ⟨k, by simp [hk], (hfirst.trans hcontinues).trans hlast⟩

section Own

variable {result : Node × List Effect}

/-- What the children of a node have told is not about the node. -/
theorem not_self_of_turns (hsound : n.Sound) (hids : n.ids.Nodup) {effects : List Effect}
    {after : List Node} (turns : Turns m w n.children effects after) :
    ∀ x ∈ Effect.happenings effects, x ≠ .started n.id ∧ x ≠ .ended n.id := by
  obtain ⟨hcourse, _⟩ := Script.course_of_turns turns hsound.children
  intro x hx
  obtain ⟨i, hi, hnode⟩ := hcourse.mem_ids x hx
  have hne : x.node ≠ some n.id := by
    rw [hnode]
    exact fun heq => (nodup_below hids).1 (Option.some.inj heq ▸ hi)
  constructor <;> (rintro rfl; exact hne rfl)

theorem follows_start (hrest : n.header.active = false) (hkind : n.kind = .sequence) :
    Follows n.id (plan n.children) n.told (Effect.happenings (n.start w).2) (n.start w).1.told := by
  obtain ⟨h, nodes, cursor, rfl⟩ := exists_sequence hkind
  have htold : (sequence h nodes cursor).told = none := if_neg (by simpa [header] using hrest)
  have hstarted : ((sequence h nodes cursor).start w).1.told = some [] := by
    cases hlive : h.opened.live with
    | false =>
        rw [start_of_not_live (n := sequence h nodes cursor) w hlive]
        change (if h.opened.active then some (if h.opened.live then _ else _) else none) = _
        rw [hlive]
        rfl
    | true =>
        rw [start_sequence w h hlive]
        change (if h.opened.active then some (if h.opened.live then _ else _) else none) = _
        rw [hlive]
        rfl
  rw [htold, hstarted]
  exact .opens (.nil _)

theorem follows_update (hsound : n.Sound) (hids : n.ids.Nodup) (hactive : n.header.active = true)
    (hkind : n.kind = .sequence) :
    Follows n.id (plan n.children) n.told (Effect.happenings (n.update m w).2)
      (n.update m w).1.told := by
  cases hlive : n.header.live with
  | false =>
      rw [update_of_not_live m w hlive]
      exact .nil _
  | true =>
      obtain ⟨h, nodes, cursor, rfl⟩ := exists_sequence hkind
      have hmarks : cursor.Marks nodes := hsound.tidy hlive
      obtain ⟨hturns, _⟩ := turns_walk (m := m) (w := w) hmarks
      have hself := not_self_of_turns hsound hids hturns
      have hwalk := told_walk (m := m) (w := w) hmarks (planned_of_nodup hsound.children (nodup_below hids).2)
      have hplan : plan (walk m w cursor nodes).1 = plan nodes :=
        plan_of_ids (Script.course_of_turns hturns hsound.children).1.map_ids_eq
      have hopen : h.active = true := hactive
      have hlive' : h.live = true := hlive
      rw [update_sequence m w h hlive]
      simp only [told, hopen, hlive', ↓reduceIte, hplan, children] at hwalk ⊢
      have hbegins := List.take_prefix (walk m w cursor nodes).2.1.turns (plan nodes)
      rw [hwalk] at hbegins ⊢
      exact .of_filter hself hbegins

theorem follows_finish (hsound : n.Sound) (hids : n.ids.Nodup) (hactive : n.header.active = true)
    (hkind : n.kind = .sequence) :
    Follows n.id (plan n.children) n.told (Effect.happenings n.finish.2) n.finish.1.told := by
  obtain ⟨h, nodes, cursor, rfl⟩ := exists_sequence hkind
  have hopen : h.active = true := hactive
  have hclosed : (sequence h nodes cursor).finish.1.told = none := by
    have hheader := (sequence h nodes cursor).finish_not_active
    obtain ⟨h', nodes', cursor', hfinish⟩ := exists_sequence ((finish_kind hactive).trans hkind)
    rw [hfinish] at hheader ⊢
    exact if_neg (by simpa [header] using hheader)
  rw [hclosed]
  cases hlive : h.live with
  | false =>
      have htold : (sequence h nodes cursor).told = some [] := by simp [told, hopen, hlive]
      rw [htold, finish_of_not_live hactive hlive]
      exact .closes (.nil _)
  | true =>
      have hmarks : cursor.Marks nodes := hsound.tidy hlive
      -- The moment and the surroundings play no part in an end.
      obtain ⟨hturns, _⟩ := turns_finishAt (m := ⟨0, 0⟩) (w := {}) hmarks
      have hself := not_self_of_turns hsound hids hturns
      have hend := told_finishAt hmarks (planned_of_nodup hsound.children (nodup_below hids).2)
      have htold : (sequence h nodes cursor).told = some ((plan nodes).take cursor.turns) := by
        simp [told, hopen, hlive]
      have hbegins := List.take_prefix cursor.halt.turns (plan nodes)
      rw [hend] at hbegins
      rw [htold, finish_sequence h hactive hlive, happenings_append]
      exact .append (.of_filter hself hbegins) (.closes (.nil _))

end Own

theorem continues_own {result : Node × List Effect} (hkind : result.1.kind = n.kind)
    (hid : result.1.id = n.id) (hsame : result.1.children.map ids = n.children.map ids)
    (hfollows : n.kind = .sequence → Follows n.id (plan n.children) n.told
      (Effect.happenings result.2) result.1.told) :
    Continues (Effect.happenings result.2) n result.1 :=
  ⟨hkind, hid, plan_of_ids hsame, hfollows⟩

/-- Each operation keeps the nodes of its tree. -/
structure Abiding (m : Moment) (w : Surroundings) (n : Node) : Prop where
  start : n.header.active = false → Abides [n] (n.start w).2 [(n.start w).1]
  update : n.header.active = true → Abides [n] (n.update m w).2 [(n.update m w).1]
  finish : n.header.active = true → Abides [n] n.finish.2 [n.finish.1]

/-- Turns keep the nodes of a forest, if its trees are small enough to know that of them. -/
theorem Turns.abides {nodes result : List Node} {effects : List Effect} {bound : Nat}
    (habiding : ∀ n : Node, n.size < bound → n.Sound → n.ids.Nodup → Abiding m w n)
    (turns : Turns m w nodes effects result) (hnodes : ∀ n ∈ nodes, n.size < bound ∧ n.Sound)
    (hids : (nodes.flatMap ids).Nodup) : Abides nodes effects result := by
  have hturn : ∀ (before after result : List Node) (n : Node) (next : Node × List Effect)
      (effects : List Effect), (∀ k ∈ before ++ n :: after, k.size < bound ∧ k.Sound) →
      ((before ++ n :: after).flatMap ids).Nodup → Local n next → next.1.size = n.size →
      Abides [n] next.2 [next.1] →
      ((∀ k ∈ before ++ next.1 :: after, k.size < bound ∧ k.Sound) →
        ((before ++ next.1 :: after).flatMap ids).Nodup →
        Abides (before ++ next.1 :: after) effects result) →
      Abides (before ++ n :: after) (next.2 ++ effects) result := by
    intro before after result n next effects hall hids hlocal hsize habides hrest
    refine (habides.split hlocal hids).trans (hrest ?_ ?_)
    · intro k hk
      rcases List.mem_append.mp hk with hk | hk
      · exact hall k (by simp [hk])
      rcases List.mem_cons.mp hk with rfl | hk
      · exact ⟨hsize ▸ (hall n (by simp)).1, hlocal.sound⟩
      · exact hall k (by simp [hk])
    · simp only [List.flatMap_append, List.flatMap_cons, hlocal.ids] at hids ⊢
      exact hids
  induction turns with
  | done nodes => exact fun k hk => ⟨k, hk, .of_elsewhere (by simp [Effect.happenings])⟩
  | @start before after _ n _ hrest _ ih =>
      obtain ⟨hsize, hsound⟩ := hnodes n (by simp)
      have hproceeds := hsound.operable.start (m := m) (w := w) hrest
      have habides := (habiding n hsize hsound (nodup_split hids).1).start hrest
      exact hturn before after _ n _ _ hnodes hids hproceeds.isLocal hproceeds.size_eq habides ih
  | @update before after _ n _ hactive _ _ ih =>
      obtain ⟨hsize, hsound⟩ := hnodes n (by simp)
      have hproceeds := hsound.operable.update (m := m) (w := w) hactive
      have habides := (habiding n hsize hsound (nodup_split hids).1).update hactive
      exact hturn before after _ n _ _ hnodes hids hproceeds.isLocal hproceeds.size_eq habides ih
  | @finish before after _ n _ hactive _ ih =>
      obtain ⟨hsize, hsound⟩ := hnodes n (by simp)
      have hproceeds := hsound.operable.finish (m := m) (w := w) hactive
      have habides := (habiding n hsize hsound (nodup_split hids).1).finish hactive
      exact hturn before after _ n _ _ hnodes hids hproceeds.isLocal hproceeds.size_eq habides ih

/-- **Every operation on a sound tree follows the plan of every sequence in it.** -/
theorem abiding (hsound : n.Sound) (hids : n.ids.Nodup) : Abiding m w n := by
  induction hsize : n.size using Nat.strongRecOn generalizing n with
  | ind size ih =>
  have habiding : ∀ c : Node, c.size < n.size → c.Sound → c.ids.Nodup → Abiding m w c :=
    fun c hc hcSound hcIds => ih c.size (hsize ▸ hc) hcSound hcIds rfl
  have hchildren : ∀ c ∈ n.children, c.size < n.size ∧ c.Sound :=
    fun c hc => ⟨size_lt_of_mem_children hc, hsound.children c hc⟩
  have hbelow : ∀ {effects result}, Turns m w n.children effects result →
      Abides n.children effects result ∧ result.map ids = n.children.map ids := fun turns =>
    ⟨turns.abides habiding hchildren (nodup_below hids).2,
      (Script.course_of_turns turns hsound.children).1.map_ids_eq⟩
  constructor
  · intro hrest
    obtain ⟨effects, heffects, turns, _⟩ := start_turns m w (hsound.children_rest hrest)
    obtain ⟨habides, hsame⟩ := hbelow turns
    have hid : (n.start w).1.id = n.id := by rw [id, start_header]; rfl
    have htold : Effect.happenings (n.start w).2 =
        [.started n.id] ++ Effect.happenings effects ++ [] := by
      rw [heffects, happenings_append, ← List.singleton_append, happenings_append,
        happenings_writes, List.append_nil, List.append_nil]
      rfl
    exact abides_operation hids
      (continues_own (start_kind w n) hid hsame fun hkind => follows_start hrest hkind)
      htold (by simp [Happening.node]) hsame habides
  · intro hactive
    obtain ⟨effects, heffects, turns, _⟩ := update_turns m w hsound.upright.inOrder
    obtain ⟨habides, hsame⟩ := hbelow turns
    have hid : (n.update m w).1.id = n.id := by rw [id, update_header]; rfl
    have htold : Effect.happenings (n.update m w).2 = [] ++ Effect.happenings effects ++ [] := by
      rw [heffects, happenings_append, happenings_writes, List.append_nil]
    exact abides_operation hids
      (continues_own (update_kind m w n) hid hsame fun hkind =>
        follows_update hsound hids hactive hkind)
      htold (by simp) hsame habides
  · intro hactive
    obtain ⟨effects, heffects, turns, _⟩ := finish_turns m w hactive hsound.upright.inOrder
    obtain ⟨habides, hsame⟩ := hbelow turns
    have hid : n.finish.1.id = n.id := by rw [id, finish_header hactive]; rfl
    have htold : Effect.happenings n.finish.2 =
        [] ++ Effect.happenings effects ++ [.ended n.id] := by
      rw [heffects, happenings_append, happenings_append, happenings_writes]
      rfl
    exact abides_operation hids
      (continues_own (finish_kind hactive) hid hsame fun hkind =>
        follows_finish hsound hids hactive hkind)
      htold (by simp [Happening.node]) hsame habides

end Node

end Choreo
