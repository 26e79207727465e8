import Choreo.Proofs.Node.Steering
import Choreo.Proofs.Script.Forest
import Choreo.Proofs.Session

/-!
# Stillness

An entity has a velocity only while a leaf that steers is running. Every way out of a script leads
through the ends of all that is open in it: its own completion, a stop, an inactive entity, and the
activation that takes its place. So nobody else has to stop the entity when its script is over.
-/

namespace Choreo

/-- Others add and remove records and write into them, but set no velocity. -/
def Beat.SparesVelocity (b : Beat) : Prop :=
  ∀ i, ∀ motion ∈ (b.meanwhile i).movement,
    motion.velocity == .zero ∨ ∃ former ∈ i.movement, motion.velocity = former.velocity

theorem Beat.SparesVelocity.still {b : Beat} (h : b.SparesVelocity) {i : Intentions}
    (hstill : i.Still) : (b.meanwhile i).Still := by
  intro motion hmotion
  rcases h i motion hmotion with hzero | ⟨former, hformer, hsame⟩
  · exact hzero
  · rw [hsame]
    exact hstill former hformer

namespace Header

/-- To be live means to be active, enabled and without fault. That is so as long as nobody switches the
node on or off. -/
def Candid (h : Header) : Prop :=
  h.live = true → h.active = true ∧ h.enabled = true ∧ h.fault = none

theorem candid_opened (h : Header) : h.opened.Candid := by
  intro hlive
  obtain ⟨henabled, hfault⟩ := Bool.and_eq_true_iff.mp hlive
  exact ⟨rfl, henabled, Option.isNone_iff_eq_none.mp hfault⟩

theorem candid_closed (h : Header) : h.closed.Candid := by
  intro hlive
  cases hlive

end Header

/-! ### Scripts -/

namespace Script

open Node

/-- A script between its start and its end, which accounts for the velocity of its entity. -/
structure Minded (s : Script) (i : Intentions) : Prop where
  underway : s.Underway
  candid : ∀ n ∈ s.forest.flatMap preorder, n.header.Candid
  accounted : i.Still ∨ Steered s.forest

variable {s : Script} {i : Intentions} {m : Moment} {w : Surroundings}

theorem accounted_of_course {result : List Node} {effects : List Effect}
    (course : Course m w s.forest effects result) (h : i.Still ∨ Steered s.forest) :
    (Write.applyAll i (Effect.writes effects)).Still ∨ Steered result := by
  have hbefore : Accounted i False s.forest := by simpa [Accounted] using h
  simpa [Accounted] using course.accounted hbefore

theorem candid_of_course {result : List Node} {effects : List Effect}
    (course : Course m w s.forest effects result)
    (h : ∀ n ∈ s.forest.flatMap preorder, n.header.Candid) :
    ∀ n ∈ result.flatMap preorder, n.header.Candid :=
  course.forall_header (fun h _ => h.candid_opened) (fun h _ => h.candid_closed) h

theorem Minded.update (h : s.Minded i) (m : Moment) (w : Surroundings) :
    (s.update m w).1.Minded (Write.applyAll i (Effect.writes (s.update m w).2)) := by
  obtain ⟨hcourse, hunderway⟩ := h.underway.update (m := m) (w := w)
  exact ⟨hunderway, candid_of_course hcourse h.candid, accounted_of_course hcourse h.accounted⟩

theorem Minded.finish (h : s.Minded i) :
    (Write.applyAll i (Effect.writes s.finish.2)).Still := by
  -- The moment and the surroundings play no part in an end.
  obtain ⟨hcourse, hnone⟩ := h.underway.finish (m := ⟨0, 0⟩) (w := {})
  rcases accounted_of_course hcourse h.accounted with hstill | ⟨n, hn, hsteers⟩
  · exact hstill
  · have hopen : n.id ∈ opened s.finish.1.forest := ⟨n, hn, hsteers.active, rfl⟩
    rw [hnone] at hopen
    contradiction

theorem minded_start (s : Script) (w : Surroundings) (hstill : i.Still) :
    ((s.init w).1.start w).1.Minded
      (Write.applyAll i (Effect.writes ((s.init w).1.start w).2)) := by
  have hprepared := s.prepared_init w
  obtain ⟨hcourse, hunderway⟩ := hprepared.start (m := ⟨0, 0⟩) (w := w)
  have hcandid : ∀ n ∈ (s.init w).1.forest.flatMap preorder, n.header.Candid := by
    intro n hn hlive
    rw [hprepared.not_live n hn] at hlive
    contradiction
  exact ⟨hunderway, candid_of_course hcourse hcandid,
    accounted_of_course hcourse (Or.inl hstill)⟩

/-- A composite among the actions of a flat script steers nothing. -/
theorem mem_nodes_of_steers {n : Node} (hn : n ∈ s.forest.flatMap preorder) (hsteers : n.Steers) :
    n ∈ s.nodes := by
  cases s with
  | tree root => simpa [forest, nodes] using hn
  | flat actions cursor =>
      obtain ⟨_, hroot, hn⟩ := List.mem_flatMap.mp hn
      obtain ⟨action, haction, rfl⟩ := List.mem_map.mp hroot
      rw [preorder_eq, alone_children, List.flatMap_nil, List.mem_singleton] at hn
      subst hn
      have hsteers := hsteers.steersVelocity
      rw [nodes, preorderAll_eq_flatMap]
      cases action with
      | leaf h a => exact List.mem_flatMap.mpr ⟨_, haction, by simp [preorder, alone]⟩
      | _ => cases hsteers

end Script

/-! ### Drivers -/

/-- A driver that runs minds its entity, and one that does not has left it still. -/
inductive Driver.Minded (d : Driver) (i : Intentions) : Prop
  | atRest (hstatus : d.status ≠ .running) (hstill : i.Still)
  | running {script : Script} (hstatus : d.status = .running) (hscript : d.script = some script)
      (hminded : script.Minded i)

namespace Driver

variable {d : Driver} {i : Intentions}

theorem Minded.stop (h : d.Minded i) : (Write.applyAll i (Effect.writes d.stop.2)).Still := by
  cases h with
  | atRest hstatus hstill =>
      rw [stop_of_not_running hstatus]
      exact hstill
  | running hstatus hscript hminded =>
      rw [stop_of_running hstatus hscript, Effect.writes_append, Effect.writes_event]
      simpa [Effect.writes] using hminded.finish

theorem minded_activate (hstatus : d.status ≠ .running) (hstill : i.Still) (w : Surroundings)
    (override : Option Script) :
    (d.activate w override).1.1.Minded
      (Write.applyAll i (Effect.writes (d.activate w override).1.2)) := by
  cases hfound : (override <|> d.default) with
  | none =>
      rw [activate_of_none w hstatus hfound]
      exact .atRest (by simp) hstill
  | some script =>
      rw [activate_of_some w hstatus hfound, Effect.writes_append, Effect.writes_append,
        Effect.writes_events, Effect.writes_event]
      refine .running rfl rfl ?_
      simpa [Effect.writes] using script.minded_start w hstill

theorem Minded.activate (h : d.Minded i) (w : Surroundings) (override : Option Script) :
    (d.activate w override).1.1.Minded
      (Write.applyAll i (Effect.writes (d.activate w override).1.2)) := by
  rw [activate_eq, Effect.writes_append, Write.applyAll_append]
  exact minded_activate d.stop_status_ne_running h.stop w override

theorem Minded.tick (h : d.Minded i) (m : Moment) (w : Surroundings) :
    (d.tick m w).1.Minded (Write.applyAll i (Effect.writes (d.tick m w).2)) := by
  cases h with
  | atRest hstatus hstill =>
      rw [tick_of_not_running m w hstatus]
      exact .atRest hstatus hstill
  | @running script hstatus hscript hminded =>
      cases hstop : script.hasStopped w with
      | true =>
          rw [tick_of_hasStopped m w hstatus hscript hstop, Effect.writes_append,
            Effect.writes_event]
          refine .atRest (by cases w.active <;> simp) ?_
          simpa [Effect.writes] using hminded.finish
      | false =>
          rw [tick_of_not_hasStopped m w hstatus hscript hstop]
          exact .running hstatus rfl (hminded.update m w)

theorem Minded.call (h : d.Minded i) (m : Moment) (w : Surroundings) (call : Call) :
    (d.call m w call).1.Minded (Write.applyAll i (Effect.writes (d.call m w call).2)) := by
  cases call with
  | activate override => exact h.activate w override
  | tick => exact h.tick m w
  | stop => exact .atRest d.stop_status_ne_running h.stop

theorem Minded.meanwhile (h : d.Minded i) {b : Beat} (hb : b.SparesVelocity) :
    d.Minded (b.meanwhile i) := by
  cases h with
  | atRest hstatus hstill => exact .atRest hstatus (hb.still hstill)
  | running hstatus hscript hminded =>
      have haccounted := hminded.accounted.imp_left hb.still
      exact .running hstatus hscript ⟨hminded.underway, hminded.candid, haccounted⟩

end Driver

/-- **No velocity is left behind.** If nobody else sets the velocity of an entity, then whenever it has
one some leaf of its script that steers is between its start and its end, enabled and without fault; so
it is still unless its driver runs. -/
theorem no_velocity_left_behind (default : Option Script) {intentions : Intentions}
    (hstill : intentions.Still) {beats : List Beat} (hbeats : ∀ b ∈ beats, b.SparesVelocity) :
    let session := (Session.fresh default intentions).run beats
    (¬ session.intentions.Still → ∃ script, session.driver.script = some script ∧
      ∃ n ∈ script.nodes, n.kind ∈ [.moveBy, .followPath, .followBezier] ∧
        n.header.active = true ∧ n.header.live = true ∧ n.header.enabled = true ∧
        n.header.fault = none) ∧
    (session.driver.status ≠ .running → session.intentions.Still) := by
  intro session
  have hbeat : ∀ (s : Session) (b : Beat), s.driver.Minded s.intentions → b.SparesVelocity →
      (s.beat b).driver.Minded (s.beat b).intentions :=
    fun s b h hb => (h.meanwhile hb).call b.moment b.surroundings b.call
  have hend : session.driver.Minded session.intentions :=
    Session.run_keeps hbeat (.atRest (by simp [Session.fresh]) hstill) hbeats
  cases hend with
  | atRest hstatus hstill => exact ⟨fun hmoves => absurd hstill hmoves, fun _ => hstill⟩
  | @running script hstatus hscript hminded =>
      refine ⟨fun hmoves => ⟨script, hscript, ?_⟩, fun hidle => absurd hstatus hidle⟩
      obtain ⟨n, hn, hsteers⟩ := hminded.accounted.resolve_left hmoves
      obtain ⟨hactive, henabled, hfault⟩ := hminded.candid n hn hsteers.live
      exact ⟨n, Script.mem_nodes_of_steers hn hsteers, hsteers.kind_mem, hactive, hsteers.live, henabled,
        hfault⟩

/-- One step, in which the entity has a velocity, and a stop. -/
theorem no_velocity_left_behind_stride :
    let stride : Script := .tree (.leaf {} (.moveBy { vector := .right, speed := 1 }))
    let go : Beat := ⟨⟨0, 1⟩, {}, id, .activate none⟩
    let tick : Beat := ⟨⟨1, 1⟩, {}, id, .tick⟩
    let stop : Beat := ⟨⟨1, 1⟩, {}, id, .stop⟩
    let session := (Session.fresh (some stride) .all).run [go, tick]
    let stopped := (Session.fresh (some stride) .all).run [go, tick, stop]
    ¬ session.intentions.Still ∧
      (∃ script, session.driver.script = some script ∧
        ∃ n ∈ script.nodes, n.kind ∈ [.moveBy, .followPath, .followBezier] ∧
          n.header.active = true ∧ n.header.live = true ∧ n.header.enabled = true ∧
          n.header.fault = none) ∧
      stopped.intentions.Still := by
  intro stride go tick stop session stopped
  have hspares : ∀ b ∈ [go, tick, stop], b.SparesVelocity := by
    have hid : ∀ b : Beat, b.meanwhile = id → b.SparesVelocity := by
      intro b hb i motion hmotion
      rw [hb] at hmotion
      exact Or.inr ⟨motion, hmotion, rfl⟩
    intro b hb
    simp only [List.mem_cons, List.not_mem_nil, or_false] at hb
    rcases hb with rfl | rfl | rfl <;> exact hid _ rfl
  have hstill : Intentions.all.Still := by decide +kernel
  have hmoves : ¬ session.intentions.Still := by decide +kernel
  have hfirst : ∀ b ∈ [go, tick], b.SparesVelocity :=
    fun b hb => hspares b (List.mem_append_left [stop] hb)
  have hbefore := no_velocity_left_behind (some stride) hstill hfirst
  have hafter := no_velocity_left_behind (some stride) hstill hspares
  have hstopped : stopped.driver.status ≠ .running := by decide +kernel
  exact ⟨hmoves, hbefore.1 hmoves, hafter.2 hstopped⟩

end Choreo
