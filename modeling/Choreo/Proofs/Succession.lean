import Choreo.Proofs.Node.Agenda
import Choreo.Proofs.Node.Succession
import Choreo.Proofs.Unwinding

/-!
# The children of a sequence take turns

Over a whole run the starts and ends of the children of a sequence come in the order of its plan,
wherever the sequence stands in its tree, and whatever is switched on and off in the meantime. The
actions of a flat script do the same, from the start of the script on.
-/

namespace Choreo

/-- What can become of a script that is checked, and then started, updated and ended in the order of its
lifecycle, with what has been told since it was last started. Between two calls any nodes may be switched
on and off. -/
inductive Script.Recounted : Bool → Script → List Happening → Prop
  | init (w : Surroundings) (script : Script) : Recounted false (script.init w).1 []
  | start {script : Script} {trace : List Happening} (w : Surroundings)
      (h : Recounted false script trace) :
      Recounted true (script.start w).1 (Effect.happenings (script.start w).2)
  | update {script : Script} {trace : List Happening} (m : Moment) (w : Surroundings)
      (h : Recounted true script trace) :
      Recounted true (script.update m w).1 (trace ++ Effect.happenings (script.update m w).2)
  | finish {script : Script} {isOpen : Bool} {trace : List Happening}
      (h : Recounted isOpen script trace) :
      Recounted false script.finish.1 (trace ++ Effect.happenings script.finish.2)
  | switch {script next : Script} {isOpen : Bool} {trace : List Happening}
      (h : Recounted isOpen script trace)
      (hsame : next.retouch .unswitched = script.retouch .unswitched) : Recounted isOpen next trace

namespace Node

variable {m : Moment} {w : Surroundings} {isOpen : Bool} {trace : List Happening} {root : Node}

/-! ### Trees -/

/-- Every sequence of a tree has followed its plan. -/
def OnPlan (trace : List Happening) (root : Node) : Prop :=
  ∀ k ∈ root.preorder, k.kind = .sequence →
    Follows k.id (plan k.children) none trace k.told

theorem told_of_rest {n : Node} (hrest : n.header.active = false) : n.told = none := by
  cases n with
  | sequence h nodes cursor => exact if_neg (by simpa [header] using hrest)
  | _ => rfl

theorem Abides.onPlan {effects : List Effect} {next : Node} (habides : Abides [root] effects [next])
    (hroot : OnPlan trace root) : OnPlan (trace ++ Effect.happenings effects) next := by
  intro k' hk' hkind
  obtain ⟨k, hk, hcontinues⟩ := habides k' (by simpa using hk')
  have hsequence : k.kind = .sequence := hcontinues.kind ▸ hkind
  have hbefore := hroot k (by simpa using hk) hsequence
  rw [hcontinues.id, hcontinues.plan]
  exact hbefore.append (hcontinues.follows hsequence)

theorem onPlan_of_rest (hsound : root.Sound) (hrest : root.header.active = false) :
    OnPlan [] root := by
  intro k hk _
  rw [told_of_rest (not_active_of_mem_preorder hsound hrest hk)]
  exact .nil none

theorem abides_finish {n : Node} (hsound : n.Sound) (hids : n.ids.Nodup) :
    Abides [n] n.finish.2 [n.finish.1] := by
  cases hactive : n.header.active with
  | true => exact (abiding (m := ⟨0, 0⟩) (w := {}) hsound hids).finish hactive
  | false =>
      rw [finish_of_not_active hactive]
      exact fun k hk => ⟨k, hk, .of_elsewhere (by simp [Effect.happenings])⟩

theorem id_unswitched (n : Node) : (n.retouch .unswitched).id = n.id := by
  rw [id, retouch_header]
  rfl

theorem kind_unswitched (n : Node) : (n.retouch .unswitched).kind = n.kind := by
  cases n with
  | repeating h child running => rw [retouch_repeating]; rfl
  | _ => rfl

theorem plan_unswitched (nodes : List Node) : plan (nodes.map (retouch .unswitched)) = plan nodes := by
  refine plan_congr ?_
  rw [List.map_map]
  exact List.map_congr_left fun n _ => n.id_unswitched

theorem told_unswitched (n : Node) : (n.retouch .unswitched).told = n.told := by
  cases n with
  | sequence h nodes cursor =>
      rw [retouch_sequence]
      change (if h.active then some (if h.live then List.take _ (plan _) else []) else none) = _
      rw [plan_unswitched]
      rfl
  | repeating h child running => rw [retouch_repeating]; rfl
  | _ => rfl

theorem OnPlan.switch {next : Node} (hroot : OnPlan trace root)
    (hsame : next.retouch .unswitched = root.retouch .unswitched) : OnPlan trace next := by
  intro k' hk' hkind
  obtain ⟨k, hk, heq⟩ : ∃ k ∈ root.preorder, k.retouch .unswitched = k'.retouch .unswitched := by
    have hmem := List.mem_map_of_mem (f := retouch .unswitched) hk'
    rw [← preorder_retouch, hsame, preorder_retouch] at hmem
    exact List.mem_map.mp hmem
  have hfollows := hroot k hk (by rw [← kind_unswitched, heq, kind_unswitched, hkind])
  rw [← k.id_unswitched, ← plan_unswitched, ← k.told_unswitched, ← retouch_children, heq,
    retouch_children, plan_unswitched, id_unswitched, told_unswitched] at hfollows
  exact hfollows

theorem Handled.abiding {isOpen : Bool} (h : Handled isOpen root) : Abiding m w root :=
  Node.abiding h.sound.1 h.nodup

/-! ### Flat lists -/

/-- The actions of a flat script, before or after its run and during it. -/
structure Lined (isOpen : Bool) (trace : List Happening) (actions : List Node) (cursor : Cursor) :
    Prop where
  flat : ∀ n ∈ actions, n.Flat
  sound : ∀ n ∈ actions, n.alone.Sound
  nodup : ((actions.map alone).flatMap ids).Nodup
  marks : cursor.Marks actions
  rest : isOpen = false → ∀ n ∈ actions, n.header.active = false
  told : trace.filter (· ∈ plan actions) = (plan actions).take cursor.turns

theorem plan_alone (nodes : List Node) : plan (nodes.map alone) = plan nodes := by
  refine plan_congr ?_
  rw [List.map_map]
  exact List.map_congr_left fun n _ => n.alone_id

theorem flat_finishAt {nodes : List Node} (hflat : ∀ n ∈ nodes, n.Flat) (cursor : Cursor) :
    ∀ n ∈ (finishAt cursor nodes).1, n.Flat := by
  induction nodes generalizing cursor with
  | nil => cases cursor <;> simp [finishAt]
  | cons n rest ih =>
      obtain ⟨hn, hrest⟩ := List.forall_mem_cons.mp hflat
      cases cursor using Cursor.headCases with
      | ready => simpa [finishAt] using hflat
      | finished next => simpa [finishAt] using hflat
      | running =>
          rw [finishAt_running]
          exact List.forall_mem_cons.mpr ⟨(finish_alone hn).2, hrest⟩
      | shift cursor =>
          rw [finishAt_shift]
          exact List.forall_mem_cons.mpr ⟨hn, ih hrest cursor⟩

theorem marks_finishAt {cursor : Cursor} {nodes : List Node} (hmarks : cursor.Marks nodes) :
    cursor.halt.Marks (finishAt cursor nodes).1 := by
  induction nodes generalizing cursor with
  | nil => cases cursor <;> simp_all [finishAt, Cursor.halt, Cursor.Marks]
  | cons n rest ih =>
      cases cursor using Cursor.headCases with
      | ready => simpa [finishAt, Cursor.halt] using hmarks
      | finished next => simpa [finishAt, Cursor.halt] using hmarks
      | running =>
          have hready := (Cursor.marks_ready rest).mpr hmarks.2
          rw [finishAt_running]
          exact (Cursor.marks_shift (.ready 0) _ _).mpr ⟨n.finish_not_active, hready⟩
      | shift cursor =>
          obtain ⟨hn, hmarks⟩ := (cursor.marks_shift n rest).mp hmarks
          have hhalt : cursor.shift.halt = cursor.halt.shift := by cases cursor <;> rfl
          rw [finishAt_shift, hhalt]
          exact (Cursor.marks_shift _ _ _).mpr ⟨hn, ih hmarks⟩

namespace Lined

variable {actions : List Node} {cursor : Cursor}

theorem sound_map (h : Lined isOpen trace actions cursor) : ∀ n ∈ actions.map alone, n.Sound :=
  List.forall_mem_map.mpr h.sound

theorem marks_map (h : Lined isOpen trace actions cursor) : cursor.Marks (actions.map alone) :=
  (marks_alone cursor actions).mpr h.marks

theorem planned (h : Lined isOpen trace actions cursor) :
    ∀ n ∈ actions.map alone, n.Planned (plan actions) := by
  rw [← plan_alone]
  exact planned_of_nodup h.sound_map h.nodup

theorem init (w : Surroundings) (actions : List Node) :
    Lined false [] (initFlatAll w 0 actions).1 (.ready 0) := by
  have hprepared := Script.prepared_init w (.flat actions)
  have hrest : ∀ n ∈ (initFlatAll w 0 actions).1, n.header.active = false := fun n hn => by
    have halone := hprepared.rest n.alone (List.mem_map_of_mem hn)
    rwa [alone_header] at halone
  exact ⟨hprepared.flat, List.forall_mem_map.mp hprepared.sound, hprepared.nodup,
    (Cursor.marks_ready _).mpr hrest, fun _ => hrest, rfl⟩

theorem start (h : Lined false trace actions cursor) : Lined true [] actions (.ready 0) :=
  ⟨h.flat, h.sound, h.nodup, (Cursor.marks_ready _).mpr (h.rest rfl), by simp, rfl⟩

/-- What is left of the actions after a tick or an end. -/
theorem next {isOpen' : Bool} {result : List Node} {effects : List Effect} {cursor' : Cursor}
    (h : Lined isOpen trace actions cursor)
    (turns : Turns m w (actions.map alone) effects (result.map alone))
    (hflat : ∀ n ∈ result, n.Flat) (hmarks : cursor'.Marks result)
    (hrest : isOpen' = false → ∀ n ∈ result, n.header.active = false)
    (htold : (plan (actions.map alone)).take cursor'.turns =
      (plan (actions.map alone)).take cursor.turns ++
        (Effect.happenings effects).filter (· ∈ plan actions)) :
    Lined isOpen' (trace ++ Effect.happenings effects) result cursor' := by
  obtain ⟨hcourse, hsound⟩ := Script.course_of_turns turns h.sound_map
  have hids := hcourse.map_ids_eq
  have hplan : plan result = plan actions := by
    rw [← plan_alone, plan_of_ids hids, plan_alone]
  rw [plan_alone] at htold
  refine ⟨hflat, List.forall_mem_map.mp hsound, ?_, hmarks, hrest, ?_⟩
  · rw [List.flatMap_def, hids, ← List.flatMap_def]
    exact h.nodup
  · rw [hplan, List.filter_append, h.told, htold]

theorem update (h : Lined true trace actions cursor) (m : Moment) (w : Surroundings) :
    Lined true (trace ++ Effect.happenings (walk m w cursor actions).2.2)
      (walk m w cursor actions).1 (walk m w cursor actions).2.1 := by
  obtain ⟨hwalk, hflat⟩ := walk_alone m w h.flat cursor
  obtain ⟨hturns, hmarks⟩ := turns_walk (m := m) (w := w) h.marks_map
  have htold := told_walk (m := m) (w := w) h.marks_map h.planned
  rw [hwalk] at hturns hmarks htold
  exact h.next hturns hflat ((marks_alone _ _).mp hmarks) (by simp) htold

theorem finish (h : Lined isOpen trace actions cursor) :
    Lined false (trace ++ Effect.happenings (finishAt cursor actions).2)
      (finishAt cursor actions).1 cursor.halt := by
  have hfinish := finishAt_alone h.flat cursor
  -- The moment and the surroundings play no part in an end.
  obtain ⟨hturns, hrest⟩ := turns_finishAt (m := ⟨0, 0⟩) (w := {}) h.marks_map
  have htold := told_finishAt h.marks_map h.planned
  rw [hfinish] at hturns hrest htold
  have hclosed : ∀ n ∈ (finishAt cursor actions).1, n.header.active = false := fun n hn => by
    have halone := hrest n.alone (List.mem_map_of_mem hn)
    rwa [alone_header] at halone
  exact h.next hturns (flat_finishAt h.flat cursor) (marks_finishAt h.marks) (fun _ => hclosed) htold

theorem switch {actions' : List Node} (h : Lined isOpen trace actions cursor)
    (hsame : actions'.map (retouch .unswitched) = actions.map (retouch .unswitched)) :
    Lined isOpen trace actions' cursor := by
  have hfrom : ∀ n ∈ actions', ∃ k ∈ actions, k.retouch .unswitched = n.retouch .unswitched := by
    intro n hn
    have hmem := List.mem_map_of_mem (f := retouch .unswitched) hn
    rw [hsame] at hmem
    exact List.mem_map.mp hmem
  have halone : ∀ n : Node, n.alone.retouch .unswitched = (n.retouch .unswitched).alone := by
    intro n
    cases n with
    | repeating h child running => rw [retouch_repeating]; rfl
    | _ => rfl
  have hplan : plan actions' = plan actions := by
    rw [← plan_unswitched, hsame, plan_unswitched]
  refine ⟨?_, ?_, ?_, ?_, ?_, by rw [hplan]; exact h.told⟩
  · intro n hn hcomposite
    obtain ⟨k, hk, heq⟩ := hfrom n hn
    have hkind : k.isComposite = n.isComposite := by
      rw [← retouch_isComposite .unswitched, heq, retouch_isComposite]
    have hheader := congrArg header heq
    rw [retouch_header, retouch_header] at hheader
    have hk := h.flat k hk (hkind.trans hcomposite)
    exact ⟨(congrArg (·.fault.isSome) hheader) ▸ hk.1, (congrArg Header.live hheader) ▸ hk.2⟩
  · intro n hn
    obtain ⟨k, hk, heq⟩ := hfrom n hn
    rw [← sound_unswitched, halone, ← heq, ← halone, sound_unswitched]
    exact h.sound k hk
  · have hids : (actions'.map alone).map ids = (actions.map alone).map ids := by
      have hunswitched : ∀ nodes : List Node, (nodes.map alone).map ids =
          ((nodes.map (retouch .unswitched)).map alone).map ids := fun nodes => by
        simp only [List.map_map]
        refine List.map_congr_left fun n _ => ?_
        rw [Function.comp_apply, Function.comp_apply, Function.comp_apply, ← halone, ids_unswitched]
      rw [hunswitched, hsame, ← hunswitched]
    rw [List.flatMap_def, hids, ← List.flatMap_def]
    exact h.nodup
  · rw [← cursor.marks_map active_unswitched, hsame, cursor.marks_map active_unswitched]
    exact h.marks
  · intro hclosed n hn
    obtain ⟨k, hk, heq⟩ := hfrom n hn
    rw [← active_unswitched, ← heq, active_unswitched]
    exact h.rest hclosed k hk

end Lined

end Node

/-! ### Scripts -/

open Node in
/-- A script that has been recounted is in order, and so is what has been told of it. -/
inductive Script.InOrder (isOpen : Bool) (trace : List Happening) : Script → Prop
  | tree {root : Node} (hhandled : Handled isOpen root) (hplan : OnPlan trace root) :
      InOrder isOpen trace (.tree root)
  | flat {actions : List Node} {cursor : Cursor} (hlined : Lined isOpen trace actions cursor) :
      InOrder isOpen trace (.flat actions cursor)

open Node in
theorem Script.Recounted.inOrder {isOpen : Bool} {script : Script} {trace : List Happening}
    (h : script.Recounted isOpen trace) : script.InOrder isOpen trace := by
  induction h with
  | init w script =>
      cases script with
      | tree root =>
          exact .tree (.init w root) (onPlan_of_rest (root.sound_init w 0) (root.init_not_active w 0))
      | flat actions cursor => exact .flat (Lined.init w actions)
  | @start script trace w _ ih =>
      cases ih with
      | tree hhandled _ =>
          obtain ⟨hsound, hrest⟩ := hhandled.sound
          -- The moment plays no part in a start.
          have habides := (hhandled.abiding (m := ⟨0, 0⟩) (w := w)).start hrest
          exact .tree (.start w hhandled) (habides.onPlan (onPlan_of_rest hsound hrest))
      | flat hlined => exact .flat hlined.start
  | update m w _ ih =>
      cases ih with
      | tree hhandled hplan =>
          have habides := (hhandled.abiding (m := m) (w := w)).update hhandled.sound.2
          exact .tree (.update m w hhandled) (habides.onPlan hplan)
      | flat hlined => exact .flat (hlined.update m w)
  | finish _ ih =>
      cases ih with
      | tree hhandled hplan =>
          have habides := abides_finish hhandled.sound.1 hhandled.nodup
          exact .tree (.finish hhandled) (habides.onPlan hplan)
      | flat hlined => exact .flat hlined.finish
  | @switch script next isOpen trace _ hsame ih =>
      cases ih with
      | tree hhandled hplan =>
          cases next with
          | flat => cases hsame
          | tree root =>
              have hroot := Script.tree.inj hsame
              exact .tree (.switch hhandled hroot) (hplan.switch hroot)
      | flat hlined =>
          cases next with
          | tree => cases hsame
          | flat actions cursor =>
              obtain ⟨hactions, hcursor⟩ := Script.flat.inj hsame
              obtain rfl := hcursor
              exact .flat (hlined.switch hactions)

namespace Node

/-- What a trace tells of a sequence. -/
structure InOrderIn (trace : List Happening) (h : Header) (nodes : List Node) (cursor : Cursor) :
    Prop where
  /-- Between a start of the sequence and its end, its children have had their turns in order. -/
  window : ∀ before during after, trace = before ++ .started h.id :: (during ++ after) →
    .ended h.id ∉ during → during.filter (· ∈ plan nodes) <+: plan nodes
  /-- As long as the sequence is live, the cursor tells how many of the turns have come. -/
  latest : h.live = true → ∃ before during, trace = before ++ .started h.id :: during ∧
    .ended h.id ∉ during ∧ during.filter (· ∈ plan nodes) = (plan nodes).take cursor.turns ∧
    (cursor.isFinished = true → during.filter (· ∈ plan nodes) = plan nodes)

theorem take_of_isFinished {cursor : Cursor} {nodes : List Node} (hmarks : cursor.Marks nodes)
    (hfinished : cursor.isFinished = true) : (plan nodes).take cursor.turns = plan nodes := by
  cases cursor with
  | finished next =>
      have hnext : next = nodes.length := (hmarks.next_eq hfinished).2
      rw [Cursor.turns, hnext, ← plan_length, List.take_length]
  | _ => cases hfinished

theorem Handled.inOrderIn {isOpen : Bool} {root : Node} {trace : List Happening}
    (hhandled : Handled isOpen root) (hplan : OnPlan trace root) {h : Header} {nodes : List Node}
    {cursor : Cursor} (hmem : .sequence h nodes cursor ∈ root.preorder) :
    InOrderIn trace h nodes cursor := by
  have hsound := hhandled.sound.1.of_mem_preorder hmem
  have hids := hhandled.nodup.sublist (sublist_ids_of_mem_preorder hmem)
  have hapart : ∀ x ∈ plan nodes, x.node ≠ some h.id := by
    intro x hx hnode
    obtain ⟨c, hc, hid⟩ := node_of_mem_plan hx
    have hself : (sequence h nodes cursor).id = c.id := Option.some.inj (hnode.symm.trans hid)
    refine (nodup_below hids).1 ?_
    rw [hself]
    exact List.mem_flatMap.mpr ⟨c, hc, c.id_mem_ids⟩
  have hstarted : .started h.id ∉ plan nodes := fun hx => hapart _ hx rfl
  have hended : .ended h.id ∉ plan nodes := fun hx => hapart _ hx rfl
  have hfollows := hplan _ hmem rfl
  refine ⟨?_, fun hlive => ?_⟩
  · rintro before during after rfl hopen
    exact (hfollows.window hstarted hopen).1
  · have hactive : h.active = true := hsound.upright.active_of_live hlive
    have hmarks : cursor.Marks nodes := hsound.tidy hlive
    have htold : (sequence h nodes cursor).told = some ((plan nodes).take cursor.turns) := by
      simp [told, hactive, hlive]
    rw [htold] at hfollows
    obtain ⟨before, during, htrace, hopen, htold⟩ := hfollows.exists_window hended
    refine ⟨before, during, htrace, hopen, htold, fun hfinished => ?_⟩
    exact htold.trans (take_of_isFinished hmarks hfinished)

end Node

open Node in
/-- **The children of a sequence run in order.** Whatever is done with a script in the order of its
lifecycle, the children of each of its sequences are started and ended one after another, none of them
left out or repeated, and a tick of a sequence that is not over by then updates the one child that runs.
The same is true of the actions of a flat script. -/
theorem sequences_run_in_order {isOpen : Bool} {script : Script} {trace : List Happening}
    (hscript : script.Recounted isOpen trace) :
    (∀ root, script = .tree root →
      (∀ h nodes cursor, .sequence h nodes cursor ∈ root.preorder →
        InOrderIn trace h nodes cursor) ∧
      (isOpen = true → ∀ m w h nodes cursor,
        Relation.ReflTransGen (Calls w) (.update, root) (.update, .sequence h nodes cursor) →
        h.live = true → Advances m w cursor nodes)) ∧
    (∀ actions cursor, script = .flat actions cursor →
      trace.filter (· ∈ plan actions) <+: plan actions ∧
      (cursor.isFinished = true → trace.filter (· ∈ plan actions) = plan actions) ∧
      (isOpen = true → ∀ m w, Advances m w cursor actions)) := by
  refine ⟨?_, ?_⟩
  · rintro root rfl
    obtain ⟨hhandled, hplan⟩ | _ := hscript.inOrder
    refine ⟨fun h nodes cursor hmem => hhandled.inOrderIn hplan hmem, ?_⟩
    rintro rfl m w h nodes cursor hreached hlive
    obtain ⟨hsound, hactive⟩ := hhandled.sound
    have hsequence := (sound_and_permitted_of_reached hreached hsound hactive).1
    exact advances m w (hsequence.tidy hlive)
  · rintro actions cursor rfl
    obtain _ | hlined := hscript.inOrder
    refine ⟨?_, fun hfinished => ?_, fun _ m w => advances m w hlined.marks⟩
    · rw [hlined.told]
      exact List.take_prefix _ _
    · rw [hlined.told, take_of_isFinished hlined.marks hfinished]

open Node in
/-- A walk, which is over at once, and an attack. -/
theorem sequences_run_in_order_sally :
    let sally : Script :=
      .tree (.sequence {} [.leaf {} (.walk ⟨0⟩), .leaf {} (.attack {})] (.ready 0))
    let started := (sally.init {}).1.start {}
    let once := started.1.update ⟨0, 1⟩ {}
    let twice := once.1.update ⟨1, 1⟩ {}
    let trace := Effect.happenings started.2 ++ Effect.happenings once.2 ++
      Effect.happenings twice.2
    trace = [.started 0, .started 1, .ended 1, .started 2, .ended 2] ∧
      ∃ h nodes cursor, twice.1 = .tree (.sequence h nodes cursor) ∧ h.live = true ∧
        cursor.isFinished = true ∧ InOrderIn trace h nodes cursor := by
  intro sally started once twice trace
  have htwice : twice.1.Recounted true trace :=
    .update ⟨1, 1⟩ {} (.update ⟨0, 1⟩ {} (.start {} (.init {} sally)))
  obtain ⟨h, nodes, cursor, hroot, hlive, hfinished⟩ : ∃ h nodes cursor,
      twice.1 = .tree (.sequence h nodes cursor) ∧ h.live = true ∧ cursor.isFinished = true :=
    ⟨_, _, _, rfl, rfl, rfl⟩
  obtain ⟨horder, _⟩ := (sequences_run_in_order htwice).1 _ hroot
  exact ⟨rfl, h, nodes, cursor, hroot, hlive, hfinished, horder h nodes cursor (by simp [preorder])⟩

end Choreo
