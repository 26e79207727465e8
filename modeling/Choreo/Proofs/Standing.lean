import Choreo.Proofs.Reactivation
import Choreo.Proofs.Reporting
import Mathlib.Data.List.Induction
import Mathlib.Data.List.ReduceOption

/-!
# What a driver tells of itself

A driver keeps three things between two calls: its status, the script of its last activation, and the
report of a check. An activation that finds a script sets all three, and from then on they agree: the
report can be read off the held script, and a script that is no longer driven is over. There are two
exceptions. An activation that finds nothing to run empties the other two and leaves the report as it
is; and a flat script, which has no node of its own to be closed, is not over if it is ended with
actions left.
-/

namespace Choreo

open Node

/-! ### What a script tells of its check -/

namespace Script

/-- What can be read off the members of a script: who is at fault, and how many there are. -/
def account (s : Script) : Report := ⟨s.members.filterMap complaint?, s.members.length⟩

/-- The actions of a flat script have not all had their turn. -/
def isCutShort : Script → Bool
  | tree _ => false
  | flat _ cursor => !cursor.isFinished

/-- The script is over, or has actions left and is over for entities that are not active. -/
def Ended (s : Script) : Prop :=
  ∀ w, s.hasStopped w = true ↔ s.isCutShort = false ∨ w.active = false

/-- What the status of a driver says of the script that it holds. -/
def Fits : Status → Script → Prop
  | .idle, _ => False
  | .running, s => s.Underway
  | .finished, s => s.Ended ∧ s.isCutShort = false
  | .stopped, s => s.Ended

end Script

namespace Node

/-- What a report has to say of a node depends on nothing that a run changes. -/
theorem complaint?_congr {n k : Node} (hkind : n.kind = k.kind)
    (hheader : n.header.closed = k.header.closed) : n.complaint? = k.complaint? := by
  have hid : n.id = k.id := show n.header.closed.id = k.header.closed.id by rw [hheader]
  have hfault : n.header.fault = k.header.fault :=
    show n.header.closed.fault = k.header.closed.fault by rw [hheader]
  rw [complaint?, complaint?, hid, hkind, hfault]

theorem map_complaint?_preorder_congr (n k : Node) (hkind : n.kind = k.kind)
    (hheader : n.header.closed = k.header.closed)
    (hchildren : n.children.map (fun c => c.preorder.map complaint?) =
      k.children.map fun c => c.preorder.map complaint?) :
    n.preorder.map complaint? = k.preorder.map complaint? := by
  rw [preorder_eq, preorder_eq, List.map_cons, List.map_cons, complaint?_congr hkind hheader,
    List.map_flatMap, List.map_flatMap, List.flatMap_def, List.flatMap_def, hchildren]

variable {m : Moment} {w : Surroundings}

/-- What no turn changes of a node is the same of each node after any number of turns. -/
theorem Turns.map_eq {α : Type} (f : Node → α)
    (hf : ∀ n k : Node, n.kind = k.kind → n.header.closed = k.header.closed → f n = f k)
    {nodes result : List Node} {effects : List Effect} (turns : Turns m w nodes effects result) :
    result.map f = nodes.map f := by
  induction turns with
  | done nodes => rfl
  | start before after _ _ ih =>
      rw [ih, List.map_append, List.map_append, List.map_cons, List.map_cons,
        hf _ _ (start_kind w _) (by rw [start_header]; rfl)]
  | update before after _ _ _ ih =>
      rw [ih, List.map_append, List.map_append, List.map_cons, List.map_cons,
        hf _ _ (update_kind m w _) (by rw [update_header])]
  | finish before after hactive _ ih =>
      rw [ih, List.map_append, List.map_append, List.map_cons, List.map_cons,
        hf _ _ (finish_kind hactive) (by rw [finish_header hactive]; rfl)]

end Node

namespace Script

variable {m : Moment} {w : Surroundings}

theorem account_of_map_eq {s next : Script}
    (h : next.members.map complaint? = s.members.map complaint?) : next.account = s.account := by
  have hfaults : ∀ nodes : List Node,
      nodes.filterMap complaint? = (nodes.map complaint?).reduceOption :=
    fun _ => (List.filterMap_map (g := id)).symm
  have hlength := congrArg List.length h
  rw [List.length_map, List.length_map] at hlength
  rw [account, account, hfaults, hfaults, h, hlength]

theorem account_init (w : Surroundings) (s : Script) : (s.init w).1.account = (s.init w).2 := by
  have hcount := congrArg List.length (s.ids_members w)
  rw [List.length_map, List.length_range] at hcount
  rw [account, hcount, ← s.complaints_members w]

theorem account_tree_of_course {root next : Node} {effects : List Effect}
    (hcourse : Course m w [root] effects [next]) : (tree next).account = (tree root).account := by
  have hmap := hcourse.map_eq (fun n => n.preorder.map complaint?) map_complaint?_preorder_congr
  exact account_of_map_eq (by simpa [members] using hmap)

theorem account_flat_of_turns {actions next : List Node} {effects : List Effect}
    (hturns : Turns m w actions effects next) (cursor cursor' : Cursor) :
    (flat next cursor').account = (flat actions cursor).account :=
  account_of_map_eq (hturns.map_eq complaint? fun _ _ => complaint?_congr)

theorem Prepared.account_start {s : Script} (h : s.Prepared) (w : Surroundings) :
    (s.start w).1.account = s.account := by
  cases s with
  | tree root => exact account_tree_of_course (h.start (m := ⟨0, 0⟩)).1
  | flat actions cursor => rfl

theorem Underway.account_update {s : Script} (h : s.Underway) (m : Moment) (w : Surroundings) :
    (s.update m w).1.account = s.account := by
  cases s with
  | tree root => exact account_tree_of_course h.update.1
  | flat actions cursor =>
      obtain ⟨hturns, _⟩ := turns_walk (m := m) (w := w) h.standing.2
      exact account_flat_of_turns hturns _ _

theorem Underway.account_finish {s : Script} (h : s.Underway) : s.finish.1.account = s.account := by
  -- The moment and the surroundings play no part in an end.
  cases s with
  | tree root => exact account_tree_of_course (h.finish (m := ⟨0, 0⟩) (w := {})).1
  | flat actions cursor =>
      obtain ⟨hturns, _⟩ := turns_finishAt (m := ⟨0, 0⟩) (w := {}) h.standing.2
      exact account_flat_of_turns hturns _ _

/-! ### A script that has been ended -/

@[simp]
theorem isCutShort_finish (s : Script) : s.finish.1.isCutShort = s.isCutShort := by
  cases s with
  | tree root => rfl
  | flat actions cursor => cases cursor <;> rfl

theorem isCutShort_of_hasStopped {s : Script} (hstop : s.hasStopped w = true)
    (hactive : w.active = true) : s.isCutShort = false := by
  cases s with
  | tree root => rfl
  | flat actions cursor =>
      simpa [hasStopped, isCutShort, hactive] using hstop

theorem Underway.ended_finish {s : Script} (h : s.Underway) : s.finish.1.Ended := by
  intro w
  cases s with
  | tree root =>
      have hlive : root.finish.1.header.live = false := by rw [finish_header h.standing]; rfl
      have hstopped : root.finish.1.hasStopped w = true := by
        simp [Node.hasStopped, isOver, hlive]
      exact iff_of_true hstopped (Or.inl rfl)
  | flat actions cursor =>
      change (!w.active || cursor.halt.isFinished) = true ↔
        (!cursor.halt.isFinished) = false ∨ w.active = false
      simp [or_comm]

end Script

/-! ### The invariant -/

/-- What a call finds, if it is an activation: a script and what its check tells, or no script. -/
def Driver.Call.finding? (w : Surroundings) (default : Option Script) :
    Driver.Call → Option (Option Report)
  | activate override => some ((override <|> default).map fun s => (s.init w).2)
  | tick | stop => none

/-- What the activations among some beats find, one after another. -/
def findings (default : Option Script) (beats : List Beat) : List (Option Report) :=
  beats.filterMap fun b => b.call.finding? b.surroundings default

/-- A driver whose activations have found this. -/
structure Driver.Accounted (found : List (Option Report)) (d : Driver) : Prop where
  report : d.report = found.reduceOption.getLast?.getD {}
  vacant : found.getLast?.join = none → d.script = none ∧ d.status = .idle
  held : ∀ report, found.getLast? = some (some report) →
    ∃ script, d.script = some script ∧ script.account = report ∧ script.Fits d.status

namespace Driver

variable {found : List (Option Report)} {d next : Driver} {script changed : Script}

/-- A driver either holds a script that fits its status, or nothing. -/
theorem Accounted.cases (h : d.Accounted found) :
    (d.script = none ∧ d.status = .idle) ∨
      ∃ report, found.getLast? = some (some report) ∧
        ∃ script, d.script = some script ∧ script.account = report ∧ script.Fits d.status := by
  cases hlast : found.getLast?.join with
  | none => exact Or.inl (h.vacant hlast)
  | some report =>
      have hfound : found.getLast? = some (some report) := Option.join_eq_some_iff.mp hlast
      exact Or.inr ⟨report, hfound, h.held report hfound⟩

/-- The held script may change, as long as it tells the same of its check. -/
theorem Accounted.change (h : d.Accounted found) (hscript : d.script = some script)
    (hreport : next.report = d.report) (hnext : next.script = some changed)
    (haccount : changed.account = script.account) (hfits : changed.Fits next.status) :
    next.Accounted found where
  report := hreport.trans h.report
  vacant hlast := by
    obtain ⟨hnone, _⟩ := h.vacant hlast
    rw [hscript] at hnone
    cases hnone
  held report hlast := by
    obtain ⟨held, hheld, htold, _⟩ := h.held report hlast
    obtain rfl : script = held := Option.some.inj (hscript.symm.trans hheld)
    exact ⟨changed, hnext, haccount.trans htold, hfits⟩

theorem Accounted.underway (h : d.Accounted found) (hrunning : d.status = .running) :
    ∃ script, d.script = some script ∧ script.Underway := by
  rcases h.cases with ⟨_, hidle⟩ | ⟨_, _, script, hscript, _, hfits⟩
  · rw [hidle] at hrunning
    cases hrunning
  · rw [hrunning] at hfits
    exact ⟨script, hscript, hfits⟩

theorem Accounted.stop (h : d.Accounted found) : d.stop.1.Accounted found := by
  by_cases hrunning : d.status = .running
  · obtain ⟨script, hscript, hunderway⟩ := h.underway hrunning
    rw [stop_of_running hrunning hscript]
    exact h.change hscript rfl rfl hunderway.account_finish hunderway.ended_finish
  · rwa [stop_of_not_running hrunning]

theorem Accounted.tick (h : d.Accounted found) (m : Moment) (w : Surroundings) :
    (d.tick m w).1.Accounted found := by
  by_cases hrunning : d.status = .running
  · obtain ⟨script, hscript, hunderway⟩ := h.underway hrunning
    cases hstop : script.hasStopped w with
    | false =>
        rw [tick_of_not_hasStopped m w hrunning hscript hstop]
        refine h.change hscript rfl rfl (hunderway.account_update m w) ?_
        rw [hrunning]
        exact hunderway.update.2
    | true =>
        rw [tick_of_hasStopped m w hrunning hscript hstop]
        refine h.change hscript rfl rfl hunderway.account_finish ?_
        cases hactive : w.active with
        | false => exact hunderway.ended_finish
        | true =>
            have hwhole := Script.isCutShort_of_hasStopped hstop hactive
            exact ⟨hunderway.ended_finish, by rwa [Script.isCutShort_finish]⟩
  · rwa [tick_of_not_running m w hrunning]

theorem Accounted.activate (h : d.Accounted found) (w : Surroundings) (override : Option Script) :
    (d.activate w override).1.1.Accounted
      (found ++ [(override <|> d.default).map fun s => (s.init w).2]) := by
  have hstopped := h.stop
  rw [activate_eq, ← d.stop_default]
  cases hfound : (override <|> d.stop.1.default) with
  | none =>
      rw [activate_of_none w d.stop_status_ne_running hfound]
      refine ⟨?_, fun _ => ⟨rfl, rfl⟩, ?_⟩
      · simpa [List.reduceOption_append] using hstopped.report
      · simp
  | some script =>
      rw [activate_of_some w d.stop_status_ne_running hfound]
      have hprepared := script.prepared_init w
      have hunderway := (hprepared.start (m := ⟨0, 0⟩) (w := w)).2
      refine ⟨by simp [List.reduceOption_append], by simp, ?_⟩
      intro report hlast
      obtain rfl : (script.init w).2 = report := by simpa using hlast
      exact ⟨_, rfl, (hprepared.account_start w).trans (script.account_init w), hunderway⟩

theorem Accounted.call (h : d.Accounted found) (m : Moment) (w : Surroundings) (call : Call) :
    (d.call m w call).1.Accounted (found ++ (call.finding? w d.default).toList) := by
  cases call with
  | activate override => exact h.activate w override
  | tick => rw [Call.finding?, Option.toList_none, List.append_nil]; exact h.tick m w
  | stop => rw [Call.finding?, Option.toList_none, List.append_nil]; exact h.stop

theorem accounted_run (default : Option Script) (intentions : Intentions) (beats : List Beat) :
    ((Session.fresh default intentions).run beats).driver.Accounted (findings default beats) := by
  induction beats using List.reverseRecOn with
  | nil => exact ⟨rfl, fun _ => ⟨rfl, rfl⟩, by simp [findings]⟩
  | append_singleton beats b ih =>
      have hcall := ih.call b.moment b.surroundings b.call
      have hdefault : (Session.fresh default intentions).driver.default = default := rfl
      rw [Session.run_default, hdefault] at hcall
      rw [Session.run_concat, Session.beat_driver, findings, List.filterMap_append, ← findings]
      cases hfound : b.call.finding? b.surroundings default <;> simpa [hfound] using hcall

end Driver

/-! ### What a session can rely on -/

/-- **An ended script is over.** Once a driver has finished or has been stopped it holds a script, and
that script counts as over or deactivated for any entity. Only a flat script that has been stopped
with actions left counts so no longer than the entity is inactive. -/
theorem ended_scripts_are_over {default : Option Script} {intentions : Intentions}
    {beats : List Beat}
    (hended : ((Session.fresh default intentions).run beats).driver.status = .finished ∨
      ((Session.fresh default intentions).run beats).driver.status = .stopped) :
    ∃ script, ((Session.fresh default intentions).run beats).driver.script = some script ∧
      (∀ w, script.hasStopped w = true ↔ script.isCutShort = false ∨ w.active = false) ∧
      (((Session.fresh default intentions).run beats).driver.status = .finished →
        script.isCutShort = false) := by
  have haccounted := Driver.accounted_run default intentions beats
  generalize ((Session.fresh default intentions).run beats).driver = d at haccounted hended ⊢
  rcases haccounted.cases with ⟨_, hidle⟩ | ⟨_, _, script, hscript, _, hfits⟩
  · rw [hidle] at hended
    simp at hended
  refine ⟨script, hscript, ?_⟩
  rcases hended with hstatus | hstatus <;> rw [hstatus] at hfits ⊢
  · exact ⟨hfits.1, fun _ => hfits.2⟩
  · exact ⟨hfits, by simp⟩

/-- A strike in a sequence, taken back before the tick in which the sequence would have moved on. -/
theorem ended_scripts_are_over_recall :
    let strike : Node := .leaf {} (.attack {})
    let b : Beat := ⟨⟨0, 1⟩, {}, id, .tick⟩
    let s := (Session.fresh (some (.tree (.sequence {} [strike] (.ready 0)))) .all).run
      [b.activating none, b, { b with call := .stop }]
    s.driver.status = .stopped ∧
      ∃ script, s.driver.script = some script ∧ script.hasStopped {} = true := by
  intro strike b s
  have hstatus : s.driver.status = .stopped := rfl
  obtain ⟨script, hscript, hover, _⟩ := ended_scripts_are_over (Or.inr hstatus)
  have hwhole : script.isCutShort = false := by
    obtain rfl := Option.some.inj hscript
    rfl
  exact ⟨hstatus, script, hscript, (hover {}).mpr (Or.inl hwhole)⟩

/-- The same strike as the one action of a flat script: the script is not over when it has been
stopped, and its entity is active. -/
theorem flat_script_not_over_when_stopped :
    let strike : Node := .leaf {} (.attack {})
    let b : Beat := ⟨⟨0, 1⟩, {}, id, .tick⟩
    let s := (Session.fresh (some (.flat [strike])) .all).run
      [b.activating none, b, { b with call := .stop }]
    s.driver.status = .stopped ∧
      ∃ script, s.driver.script = some script ∧ script.hasStopped {} = false :=
  ⟨rfl, _, rfl, rfl⟩

/-- **The report is that of the last script.** A driver that holds a script tells what the check of
its last activation has found, and the same can be read off the script. One that was never activated,
or was last activated in vain, holds nothing and is idle; its report is still that of the last
activation that found a script, and empty if there was none. -/
theorem report_of_last_script (default : Option Script) (intentions : Intentions)
    (beats : List Beat) :
    let d := ((Session.fresh default intentions).run beats).driver
    let found := findings default beats
    (∀ report, found.getLast? = some (some report) →
      d.report = report ∧ d.status ≠ .idle ∧
        ∃ script, d.script = some script ∧ script.account = report) ∧
    (found.getLast?.join = none → d.script = none ∧ d.status = .idle) ∧
    d.report = found.reduceOption.getLast?.getD {} := by
  intro d found
  have haccounted : d.Accounted found := Driver.accounted_run default intentions beats
  refine ⟨fun report hlast => ?_, haccounted.vacant, haccounted.report⟩
  obtain ⟨script, hscript, htold, hfits⟩ := haccounted.held report hlast
  obtain ⟨earlier, hearlier⟩ := List.getLast?_eq_some_iff.mp hlast
  refine ⟨?_, ?_, script, hscript, htold⟩
  · rw [haccounted.report, hearlier]
    simp [List.reduceOption_append]
  · intro hidle
    rw [hidle] at hfits
    exact hfits

/-- An override with a fault runs when its driver, which has no default script, is activated again:
the driver is idle and holds nothing, and still tells of the fault. -/
theorem idle_driver_tells_old_fault :
    let b : Beat := ⟨⟨0, 1⟩, {}, id, .tick⟩
    let vacant : Script := .tree (.repeating {} none false)
    let d := ((Session.fresh none .all).run [b.activating (some vacant), b.activating none]).driver
    findings none [b.activating (some vacant), b.activating none] =
        [some ⟨[⟨0, .repeating, .missingChild⟩], 1⟩, none] ∧
      d.script = none ∧ d.status = .idle ∧ d.report = ⟨[⟨0, .repeating, .missingChild⟩], 1⟩ :=
  ⟨rfl, rfl, rfl, rfl⟩

end Choreo
