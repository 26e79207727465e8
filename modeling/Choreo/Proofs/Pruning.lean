import Choreo.Proofs.Image
import Choreo.Proofs.Node.PrunedInit
import Choreo.Proofs.Timeline

/-!
# Dead steps are invisible

A step of a sequence that is disabled or at fault costs nothing: the sequence leaves it behind in the
tick in which it comes to it. So a script may be pruned of such steps before it runs, at every depth,
and does the same to its entity in the same ticks. Only the numbers of the nodes change, since they
are counted over fewer nodes.
-/

namespace Choreo

namespace Script

/-- The script without the steps of sequences that are disabled or that a check finds at fault. -/
def prune (w : Surroundings) : Script → Script
  | tree root => tree (root.prune (Node.passes w))
  | flat actions cursor => flat (actions.filter (Node.passesFlat w)) cursor

/-- The numbers of the nodes that pruning leaves, in pre-order. -/
def survivors (w : Surroundings) : Script → List Nat
  | tree root => ((root.init w 0).1.prune (·.header.able)).ids
  | flat actions _ => ((Node.initFlatAll w 0 actions).1.filter (·.header.able)).map Node.id

end Script

/-- The event with a surviving node counted among the survivors. Those of other nodes are not told. -/
def Event.retell (survivors : List Nat) (e : Event) : Option Event :=
  match e.node with
  | none => some e
  | some id => (survivors.idxOf? id).map fun place => { e with node := some place }

def Driver.Call.prune (w : Surroundings) : Driver.Call → Driver.Call
  | .activate override => .activate (override.map (Script.prune w))
  | call => call

def Beat.prune (w : Surroundings) (b : Beat) : Beat := { b with call := b.call.prune w }

/-! ### Scripts -/

namespace Script

open Node

inductive Pruned (number : Nat → Option Nat) : Script → Script → Prop
  | tree {root root' : Node} (h : Node.Pruned number root root') :
      Pruned number (tree root) (tree root')
  | flat {actions actions' : List Node} (cursor : Cursor)
      (h : Thinned number (Node.Pruned number) actions actions') :
      Pruned number (flat actions cursor) (flat actions' (cursor.skip actions))

structure PrunedAfter (number : Nat → Option Nat) (result result' : Script × List Effect) : Prop where
  script : Pruned number result.1 result'.1
  told : Effect.retold number result.2 = result'.2

variable {number : Nat → Option Nat} {s t : Script}

theorem Pruned.hasStopped (h : Pruned number s t) (w : Surroundings) :
    t.hasStopped w = s.hasStopped w := by
  cases h with
  | tree h => exact h.hasStopped w
  | flat cursor h => rw [Script.hasStopped, Script.hasStopped, Cursor.isFinished_skip]

theorem Pruned.start (h : Pruned number s t) (w : Surroundings) :
    PrunedAfter number (s.start w) (t.start w) := by
  cases h with
  | tree h =>
      obtain ⟨hnode, htold⟩ := h.start w
      exact ⟨.tree hnode, htold⟩
  | @flat actions actions' cursor h =>
      have hflat := Pruned.flat (.ready 0) h
      rw [Cursor.skip_ready] at hflat
      exact ⟨hflat, rfl⟩

theorem Pruned.update (h : Pruned number s t) (m : Moment) (w : Surroundings) :
    PrunedAfter number (s.update m w) (t.update m w) := by
  cases h with
  | tree h =>
      obtain ⟨hnode, htold⟩ := h.update m w
      exact ⟨.tree hnode, htold⟩
  | @flat actions actions' cursor h =>
      have hsizes : ∀ n ∈ actions, n.size < (actions.map size).sum + 1 :=
        fun n hn => size_lt_sum_of_mem hn
      obtain ⟨hnodes, hcursor, htold⟩ :=
        h.walk_of_lt (m := m) (w := w) (fun n _ k hn => hn.update m w) hsizes cursor
      have hflat := Pruned.flat (walk m w cursor actions).2.1 hnodes
      rw [← hcursor] at hflat
      exact ⟨hflat, htold⟩

theorem Pruned.finish (h : Pruned number s t) :
    Effect.retold number s.finish.2 = t.finish.2 := by
  cases h with
  | tree h => exact h.finish.told
  | flat cursor h => exact (h.finishAt (fun n _ k hn => hn.finish) cursor).told

theorem imaging_pruned (number : Nat → Option Nat) :
    Imaging (Effect.retell number) (Pruned number) where
  stopped := rfl
  finished := rfl
  hasStopped h w := h.hasStopped w
  update h m w := ⟨(h.update m w).script, (h.update m w).told⟩
  finish h := h.finish

theorem nodup_survivors (w : Surroundings) (s : Script) : (s.survivors w).Nodup := by
  cases s with
  | tree root =>
      refine (ids_prune_sublist _ _).nodup ?_
      rw [ids_init]
      exact List.nodup_range'
  | flat actions cursor => exact nodup_leftFlatIds 0 actions

theorem retold_faults (faults : List NodeFault) :
    Effect.retold number ((faults.map fun f => .faulted f.node).map .event) =
      ((faults.filterMap (NodeFault.retell number)).map fun f => .faulted f.node).map .event := by
  induction faults with
  | nil => rfl
  | cons f faults ih =>
      rw [List.map_cons, List.map_cons, ← List.singleton_append, Effect.retold_append, ih]
      cases hnode : number f.node <;>
        simp [Effect.retold, Effect.retell, Happening.retell, NodeFault.retell, hnode]

/-- A script that is pruned and then initialised is the script initialised and then pruned. -/
theorem pruned_init (w : Surroundings) (s : Script) :
    Pruned (fun i => (s.survivors w).idxOf? i) (s.init w).1 ((s.prune w).init w).1 ∧
      Effect.retold (fun i => (s.survivors w).idxOf? i) ((s.init w).2.happenings.map .event) =
        ((s.prune w).init w).2.happenings.map .event := by
  have hnodup := s.nodup_survivors w
  cases s with
  | tree root =>
      obtain ⟨hnode, hfaults, _⟩ := root.initPruned (Numbers.idxOf hnodup 0 root.size)
      refine ⟨.tree hnode, (retold_faults _).trans ?_⟩
      exact congrArg (fun faults : List NodeFault =>
        (faults.map fun f => Happening.faulted f.node).map Effect.event) hfaults
  | flat actions cursor =>
      obtain ⟨hnodes, hfaults⟩ := thinned_initFlatAll (Numbers.idxOf hnodup 0 actions.length)
      have hflat := Pruned.flat (.ready 0) hnodes
      rw [Cursor.skip_ready] at hflat
      refine ⟨hflat, (retold_faults _).trans ?_⟩
      exact congrArg (fun faults : List NodeFault =>
        (faults.map fun f => Happening.faulted f.node).map Effect.event) hfaults

theorem changing_prune (script : Script) (owner : Surroundings) :
    Changing
      (fun effects effects' =>
        Effect.retold (fun i => (script.survivors owner).idxOf? i) effects = effects')
      (Pruned fun i => (script.survivors owner).idxOf? i) (prune owner) script
      fun w => w.has = owner.has where
  toSimulating := (imaging_pruned _).simulating
  activated := rfl
  check {w} hhas := by
    rw [script.init_congr hhas, (script.prune owner).init_congr hhas]
    exact (script.pruned_init owner).2
  start {w} hhas := by
    obtain ⟨hnode, htold⟩ := (script.pruned_init owner).1.start w
    rw [script.init_congr hhas, (script.prune owner).init_congr hhas]
    exact ⟨hnode, htold⟩

end Script

/-! ### Drivers -/

namespace Driver

/-- The second driver runs the script of the first without its dead steps. -/
structure Prunes (script : Script) (owner : Surroundings) (full pruned : Driver) : Prop where
  only : ∀ s ∈ full.default, s = script
  default : pruned.default = full.default.map (Script.prune owner)
  status : pruned.status = full.status
  scripts : full.status = .running → ∃ s t, full.script = some s ∧ pruned.script = some t ∧
    Script.Pruned (fun i => (script.survivors owner).idxOf? i) s t

structure PrunesAfter (script : Script) (owner : Surroundings) (full pruned : Driver × List Effect) :
    Prop where
  driver : Prunes script owner full.1 pruned.1
  told : Effect.retold (fun i => (script.survivors owner).idxOf? i) full.2 = pruned.2

variable {script : Script} {owner w : Surroundings} {full pruned : Driver}

theorem Prunes.changed (h : Prunes script owner full pruned) :
    Changed (Script.Pruned fun i => (script.survivors owner).idxOf? i) (Script.prune owner) script
      full pruned :=
  ⟨⟨h.status, h.scripts⟩, h.only, h.default⟩

theorem Call.prune_eq (call : Call) : call.prune owner = call.withScripts (Script.prune owner) := by
  cases call <;> rfl

theorem Prunes.call (h : Prunes script owner full pruned) (m : Moment) (hhas : w.has = owner.has)
    {call : Call} (honly : ∀ s, call = .activate (some s) → s = script) :
    PrunesAfter script owner (full.call m w call) (pruned.call m w (call.prune owner)) := by
  obtain ⟨⟨⟨hstatus, hscripts⟩, honly, hdefault⟩, htold⟩ :=
    h.changed.call (Script.changing_prune script owner) m hhas honly
  rw [Call.prune_eq]
  exact ⟨⟨honly, hdefault, hstatus, hscripts⟩, htold⟩

end Driver

/-! ### Sessions -/

theorem Effect.writes_retold (number : Nat → Option Nat) (effects : List Effect) :
    writes (retold number effects) = writes effects := by
  rw [writes, writes, retold, List.filterMap_filterMap]
  refine List.filterMap_congr fun e _ => ?_
  cases e with
  | write x => rfl
  | event h => cases hretold : h.retell number <;> simp [retell, hretold, write?]

theorem Effect.events_retold (survivors : List Nat) (m : Moment) (effects : List Effect) :
    Entity.events m (retold (fun i => survivors.idxOf? i) effects) =
      (Entity.events m effects).filterMap (Event.retell survivors) := by
  rw [Entity.events, Entity.events, happenings, happenings, retold, List.filterMap_filterMap,
    List.map_filterMap, List.filterMap_map, List.filterMap_filterMap]
  refine List.filterMap_congr fun e _ => ?_
  cases e with
  | write x => rfl
  | event h =>
      cases h with
      | started i | ended i | faulted i =>
          cases hplace : survivors.idxOf? i <;>
            simp [retell, Happening.retell, happening?, Event.retell, Happening.at, Happening.node,
              Happening.tag, hplace]
      | _ => rfl

namespace Session

structure Prunes (script : Script) (owner : Surroundings) (full pruned : Session) : Prop where
  driver : Driver.Prunes script owner full.driver pruned.driver
  intentions : pruned.intentions = full.intentions
  trace : pruned.trace = full.trace.filterMap (Event.retell (script.survivors owner))

theorem Prunes.beat {script : Script} {owner : Surroundings} {full pruned : Session}
    (h : Prunes script owner full pruned) {b : Beat} (hhas : b.surroundings.has = owner.has)
    (honly : ∀ s, b.call = .activate (some s) → s = script) :
    Prunes script owner (full.beat b) (pruned.beat (b.prune owner)) := by
  have hcall := h.driver.call b.moment hhas honly
  have hwrites := Effect.writes_retold (fun i => (script.survivors owner).idxOf? i)
    (full.driver.call b.moment b.surroundings b.call).2
  have hevents := Effect.events_retold (script.survivors owner) b.moment
    (full.driver.call b.moment b.surroundings b.call).2
  rw [hcall.told] at hwrites hevents
  refine ⟨hcall.driver, ?_, ?_⟩
  · rw [beat_intentions, beat_intentions, h.intentions, ← hwrites]
    rfl
  · rw [beat_trace, beat_trace, List.filterMap_append, h.trace, ← hevents]
    rfl

end Session

/-- **Dead steps are invisible.** Let a driver run one script, as its default or as it is given, and
another the same script without the steps of its sequences that are disabled, are found at fault or
are composites in a flat list. Under the same calls, for an entity that keeps its capabilities, both
have the same status and write the same; what the first tells of the nodes that survive, counted as
they are in the pruned script, is all that the second tells. -/
theorem dead_steps_are_invisible (script : Script) (owner : Surroundings)
    {default : Option Script} (hdefault : ∀ s ∈ default, s = script) {beats : List Beat}
    (hbeats : ∀ b ∈ beats, b.surroundings.has = owner.has ∧
      ∀ s, b.call = .activate (some s) → s = script) (intentions : Intentions) :
    let full := (Session.fresh default intentions).run beats
    let pruned := (Session.fresh (default.map (Script.prune owner)) intentions).run
      (beats.map (Beat.prune owner))
    pruned.intentions = full.intentions ∧ pruned.driver.status = full.driver.status ∧
      pruned.trace = full.trace.filterMap (Event.retell (script.survivors owner)) := by
  intro full pruned
  have hrun : ∀ {s t : Session}, s.Prunes script owner t →
      (s.run beats).Prunes script owner (t.run (beats.map (Beat.prune owner))) := by
    induction beats with
    | nil => exact id
    | cons b rest ih =>
        intro s t h
        obtain ⟨hhas, honly⟩ := hbeats b (by simp)
        exact ih (fun k hk => hbeats k (by simp [hk])) (h.beat hhas honly)
  have hfresh : (Session.fresh default intentions).Prunes script owner
      (Session.fresh (default.map (Script.prune owner)) intentions) :=
    ⟨⟨hdefault, rfl, rfl, by simp [Session.fresh]⟩, rfl, rfl⟩
  obtain ⟨hdriver, hintentions, htrace⟩ := hrun hfresh
  exact ⟨hintentions, hdriver.status, htrace⟩

/-- A disabled strike, and a repeating node without a child in front of a strike that goes ahead. -/
theorem dead_steps_are_invisible_feint :
    let strike (enabled : Bool) : Node := .leaf { enabled := enabled } (.attack {})
    let feint : Script := .tree (.sequence {} [strike false, .parallel {} [.sequence {}
      [.repeating {} none false, strike true] (.ready 0)] []] (.ready 0))
    let beats : List Beat :=
      [⟨⟨0, 1⟩, {}, id, .activate none⟩, ⟨⟨1, 1⟩, {}, id, .tick⟩, ⟨⟨2, 1⟩, {}, id, .tick⟩,
        ⟨⟨3, 1⟩, {}, id, .tick⟩]
    let full := (Session.fresh (some feint) .all).run beats
    let pruned := (Session.fresh (some (feint.prune {})) .all).run (beats.map (Beat.prune {}))
    pruned.intentions = full.intentions ∧ pruned.driver.status = full.driver.status ∧
      pruned.trace = full.trace.filterMap (Event.retell (feint.survivors {})) ∧
      feint.survivors {} = [0, 2, 3, 5] ∧
      full.intentions.melee = some ⟨true, .right⟩ ∧ full.trace.length = 12 ∧
      pruned.trace.length = 7 := by
  intro strike feint beats full pruned
  have hbeats : ∀ b ∈ beats, b.surroundings.has = ({} : Surroundings).has ∧
      ∀ s, b.call = .activate (some s) → s = feint := by
    simp [beats]
  have hdefault : ∀ s ∈ some feint, s = feint := by simp
  obtain ⟨hintentions, hstatus, htrace⟩ :=
    dead_steps_are_invisible feint {} hdefault hbeats .all
  exact ⟨hintentions, hstatus, htrace, by decide +kernel, by decide +kernel,
    by decide +kernel, by decide +kernel⟩

end Choreo
