import Choreo.Proofs.Session

/-!
# Images

One script may do all that another does and tell it in other words: some effects are left out, nodes
go by other numbers, or what happens in one call is told in another order. If every operation on the
two keeps to that, then so do the drivers that run them, in every tick and when they are stopped; and
if a check and a start do, in every activation.
-/

namespace Choreo

/-- The second of two scripts is an image of the first: it has stopped when the first has, and what it
tells is what the first tells in other words. -/
structure Simulating (Told : List Effect → List Effect → Prop) (Image : Script → Script → Prop) :
    Prop where
  nil : Told [] []
  append : ∀ {told told' more more' : List Effect}, Told told told' → Told more more' →
    Told (told ++ more) (told' ++ more')
  stopped : Told [.event .stopped] [.event .stopped]
  finished : Told [.event .finished] [.event .finished]
  hasStopped : ∀ {s t : Script}, Image s t → ∀ w, t.hasStopped w = s.hasStopped w
  update : ∀ {s t : Script}, Image s t → ∀ m w, Image (s.update m w).1 (t.update m w).1 ∧
    Told (s.update m w).2 (t.update m w).2
  finish : ∀ {s t : Script}, Image s t → Told s.finish.2 t.finish.2

/-- An image that tells each effect by itself or leaves it out. -/
structure Imaging (tell : Effect → Option Effect) (Image : Script → Script → Prop) : Prop where
  stopped : tell (.event .stopped) = some (.event .stopped)
  finished : tell (.event .finished) = some (.event .finished)
  hasStopped : ∀ {s t : Script}, Image s t → ∀ w, t.hasStopped w = s.hasStopped w
  update : ∀ {s t : Script}, Image s t → ∀ m w, Image (s.update m w).1 (t.update m w).1 ∧
    (s.update m w).2.filterMap tell = (t.update m w).2
  finish : ∀ {s t : Script}, Image s t → s.finish.2.filterMap tell = t.finish.2

variable {Told : List Effect → List Effect → Prop} {Image : Script → Script → Prop}

theorem Imaging.simulating {tell : Effect → Option Effect} (h : Imaging tell Image) :
    Simulating (fun effects effects' => effects.filterMap tell = effects') Image where
  nil := rfl
  append htold hmore := by rw [List.filterMap_append, htold, hmore]
  stopped := List.filterMap_cons_some h.stopped
  finished := List.filterMap_cons_some h.finished
  hasStopped := h.hasStopped
  update := h.update
  finish := h.finish

/-- A script and what it is changed into. Checked and started by an owner that is fit for it, the
second is an image of the first. -/
structure Changing (Told : List Effect → List Effect → Prop) (Image : Script → Script → Prop)
    (change : Script → Script) (script : Script) (Fit : Surroundings → Prop) : Prop
    extends Simulating Told Image where
  activated : Told [.event .activated] [.event .activated]
  check : ∀ {w}, Fit w → Told ((script.init w).2.happenings.map .event)
    (((change script).init w).2.happenings.map .event)
  start : ∀ {w}, Fit w →
    Image ((script.init w).1.start w).1 (((change script).init w).1.start w).1 ∧
      Told ((script.init w).1.start w).2 (((change script).init w).1.start w).2

namespace Driver

def Call.withScripts (f : Script → Script) : Call → Call
  | .activate override => .activate (override.map f)
  | call => call

/-- The second driver runs an image of the script that the first runs. -/
structure Images (Image : Script → Script → Prop) (d e : Driver) : Prop where
  status : e.status = d.status
  scripts : d.status = .running → ∃ s t, d.script = some s ∧ e.script = some t ∧ Image s t

variable {d e : Driver}

theorem Images.stop (hS : Simulating Told Image) (h : Images Image d e) :
    Images Image d.stop.1 e.stop.1 ∧ Told d.stop.2 e.stop.2 := by
  by_cases hrunning : d.status = .running
  · obtain ⟨s, t, hs, ht, himage⟩ := h.scripts hrunning
    rw [stop_of_running hrunning hs, stop_of_running (h.status.trans hrunning) ht]
    exact ⟨⟨rfl, by simp⟩, hS.append (hS.finish himage) hS.stopped⟩
  · have hrunning' : e.status ≠ .running := by rwa [h.status]
    rw [stop_of_not_running hrunning, stop_of_not_running hrunning']
    exact ⟨h, hS.nil⟩

theorem Images.tick (hS : Simulating Told Image) (h : Images Image d e) (m : Moment)
    (w : Surroundings) :
    Images Image (d.tick m w).1 (e.tick m w).1 ∧ Told (d.tick m w).2 (e.tick m w).2 := by
  by_cases hrunning : d.status = .running
  · obtain ⟨s, t, hs, ht, himage⟩ := h.scripts hrunning
    have hrunning' : e.status = .running := h.status.trans hrunning
    have hstopped := hS.hasStopped himage w
    cases hstop : s.hasStopped w with
    | true =>
        rw [tick_of_hasStopped m w hrunning hs hstop,
          tick_of_hasStopped m w hrunning' ht (hstopped.trans hstop)]
        refine ⟨⟨rfl, fun hcontra => ?_⟩, hS.append (hS.finish himage) ?_⟩
        · cases hactive : w.active <;> simp [hactive] at hcontra
        · cases w.active with
          | true => exact hS.finished
          | false => exact hS.stopped
    | false =>
        obtain ⟨hnext, htold⟩ := hS.update himage m w
        rw [tick_of_not_hasStopped m w hrunning hs hstop,
          tick_of_not_hasStopped m w hrunning' ht (hstopped.trans hstop)]
        exact ⟨⟨h.status, fun _ => ⟨_, _, rfl, rfl, hnext⟩⟩, htold⟩
  · have hrunning' : e.status ≠ .running := by rwa [h.status]
    rw [tick_of_not_running m w hrunning, tick_of_not_running m w hrunning']
    exact ⟨h, hS.nil⟩

/-- The first driver has no other script than one, and the second has what it is changed into. -/
structure Changed (Image : Script → Script → Prop) (change : Script → Script) (script : Script)
    (d e : Driver) : Prop extends Images Image d e where
  only : ∀ s ∈ d.default, s = script
  default : e.default = d.default.map change

variable {change : Script → Script} {script : Script} {Fit : Surroundings → Prop}
  {w : Surroundings}

/-- Activating a driver that is at rest. -/
theorem Changed.open (hC : Changing Told Image change script Fit)
    (h : Changed Image change script d e) (hd : d.status ≠ .running) (he : e.status ≠ .running)
    (hfit : Fit w) {override : Option Script} (honly : ∀ s ∈ override, s = script) :
    Images Image (d.activate w override).1.1 (e.activate w (override.map change)).1.1 ∧
      Told (d.activate w override).1.2 (e.activate w (override.map change)).1.2 := by
  have hchoice : (override.map change <|> e.default) = (override <|> d.default).map change := by
    rw [h.default]
    cases override <;> rfl
  cases hfound : (override <|> d.default) with
  | none =>
      rw [hfound] at hchoice
      rw [activate_of_none w hd hfound, activate_of_none w he hchoice]
      exact ⟨⟨rfl, by simp⟩, hC.nil⟩
  | some s =>
      obtain rfl : s = script := by
        cases override with
        | none => exact h.only s hfound
        | some o => exact honly s hfound
      rw [hfound] at hchoice
      obtain ⟨himage, hopening⟩ := hC.start hfit
      rw [activate_of_some w hd hfound, activate_of_some w he hchoice]
      exact ⟨⟨rfl, fun _ => ⟨_, _, rfl, rfl, himage⟩⟩,
        hC.append (hC.append (hC.check hfit) hopening) hC.activated⟩

theorem Changed.activate (hC : Changing Told Image change script Fit)
    (h : Changed Image change script d e) (hfit : Fit w) {override : Option Script}
    (honly : ∀ s ∈ override, s = script) :
    Images Image (d.activate w override).1.1 (e.activate w (override.map change)).1.1 ∧
      Told (d.activate w override).1.2 (e.activate w (override.map change)).1.2 := by
  obtain ⟨himages, hclosing⟩ := h.toImages.stop hC.toSimulating
  have hstopped : Changed Image change script d.stop.1 e.stop.1 := by
    refine ⟨himages, ?_, ?_⟩
    · rw [d.stop_default]
      exact h.only
    · rw [d.stop_default, e.stop_default]
      exact h.default
  obtain ⟨hopen, hopening⟩ :=
    hstopped.open hC d.stop_status_ne_running e.stop_status_ne_running hfit honly
  rw [activate_eq w override d, activate_eq w _ e]
  exact ⟨hopen, hC.append hclosing hopening⟩

/-- Whatever call is made of both, the second driver runs an image of what the first runs. -/
theorem Changed.call (hC : Changing Told Image change script Fit)
    (h : Changed Image change script d e) (m : Moment) (hfit : Fit w) {call : Call}
    (honly : ∀ s, call = .activate (some s) → s = script) :
    Changed Image change script (d.call m w call).1 (e.call m w (call.withScripts change)).1 ∧
      Told (d.call m w call).2 (e.call m w (call.withScripts change)).2 := by
  have hcall : Images Image (d.call m w call).1 (e.call m w (call.withScripts change)).1 ∧
      Told (d.call m w call).2 (e.call m w (call.withScripts change)).2 := by
    cases call with
    | activate override =>
        refine h.activate hC hfit fun s hs => honly s ?_
        rw [Option.mem_def.mp hs]
    | tick => exact h.toImages.tick hC.toSimulating m w
    | stop => exact h.toImages.stop hC.toSimulating
  refine ⟨⟨hcall.1, ?_, ?_⟩, hcall.2⟩
  · rw [d.call_default]
    exact h.only
  · rw [d.call_default, e.call_default]
    exact h.default

end Driver

def Beat.withScripts (f : Script → Script) (b : Beat) : Beat := { b with call := b.call.withScripts f }

end Choreo
