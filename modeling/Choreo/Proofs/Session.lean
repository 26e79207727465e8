import Choreo.Entity

/-!
# Sessions

A session is all that is ever done with one driver: a list of calls, each at a moment and in
surroundings of its own. What others do to the intentions of the entity between two calls is part of
the session as well, so that nothing need be assumed about the entity.
-/

namespace Choreo

/-- One call, after what others have done to the intentions since the last one. -/
structure Beat where
  moment : Moment
  surroundings : Surroundings
  meanwhile : Intentions → Intentions
  call : Driver.Call

/-- What a driver sees of a beat: everything but what others do to the intentions. -/
def Beat.visible (b : Beat) : Moment × Surroundings × Driver.Call :=
  (b.moment, b.surroundings, b.call)

structure Session where
  driver : Driver
  intentions : Intentions
  trace : List Event

namespace Session

def fresh (default : Option Script) (intentions : Intentions) : Session :=
  { driver := { default := default }, intentions := intentions, trace := [] }

def beat (s : Session) (b : Beat) : Session :=
  let (driver, effects) := s.driver.call b.moment b.surroundings b.call
  { driver := driver
    intentions := Write.applyAll (b.meanwhile s.intentions) (Effect.writes effects)
    trace := s.trace ++ Entity.events b.moment effects }

def run (s : Session) (beats : List Beat) : Session := beats.foldl beat s

theorem beat_driver (s : Session) (b : Beat) :
    (s.beat b).driver = (s.driver.call b.moment b.surroundings b.call).1 := rfl

theorem beat_intentions (s : Session) (b : Beat) :
    (s.beat b).intentions = Write.applyAll (b.meanwhile s.intentions)
      (Effect.writes (s.driver.call b.moment b.surroundings b.call).2) := rfl

theorem beat_trace (s : Session) (b : Beat) :
    (s.beat b).trace =
      s.trace ++ Entity.events b.moment (s.driver.call b.moment b.surroundings b.call).2 := rfl

theorem run_append (s : Session) (beats more : List Beat) :
    s.run (beats ++ more) = (s.run beats).run more :=
  List.foldl_append

theorem run_concat (s : Session) (beats : List Beat) (b : Beat) :
    s.run (beats ++ [b]) = (s.run beats).beat b := by
  rw [run_append]
  rfl

/-- What every beat of two sessions keeps holds of them at their end. -/
theorem run_relates {Related : Session → Session → Prop} {Fit : Beat → Prop}
    (hbeat : ∀ s t b, Related s t → Fit b → Related (s.beat b) (t.beat b)) {s t : Session}
    (h : Related s t) {beats : List Beat} (hbeats : ∀ b ∈ beats, Fit b) :
    Related (s.run beats) (t.run beats) := by
  induction beats generalizing s t with
  | nil => exact h
  | cons b rest ih =>
      have hnext := hbeat s t b h (hbeats b (by simp))
      exact ih hnext fun k hk => hbeats k (by simp [hk])

theorem run_keeps {Kept : Session → Prop} {Fit : Beat → Prop}
    (hbeat : ∀ s b, Kept s → Fit b → Kept (s.beat b)) {s : Session} (h : Kept s)
    {beats : List Beat} (hbeats : ∀ b ∈ beats, Fit b) : Kept (s.run beats) :=
  run_relates (fun s _ b => hbeat s b) (t := s) h hbeats

/-- What a driver and its trace depend on. -/
theorem run_visible {s s' : Session} (hdriver : s'.driver = s.driver) (htrace : s'.trace = s.trace)
    {beats beats' : List Beat} (hbeats : beats'.map Beat.visible = beats.map Beat.visible) :
    (s'.run beats').driver = (s.run beats).driver ∧ (s'.run beats').trace = (s.run beats).trace := by
  induction beats generalizing s s' beats' with
  | nil =>
      have hnil : beats' = [] := by simpa using hbeats
      rw [hnil]
      exact ⟨hdriver, htrace⟩
  | cons b rest ih =>
      obtain ⟨b', rest', rfl, hb, hrest⟩ := List.map_eq_cons_iff.mp hbeats
      simp only [Beat.visible, Prod.mk.injEq] at hb
      obtain ⟨hmoment, hsurroundings, hcall⟩ := hb
      have hstep : (s'.beat b').driver = (s.beat b).driver := by
        rw [beat_driver, beat_driver, hdriver, hmoment, hsurroundings, hcall]
      have htold : (s'.beat b').trace = (s.beat b).trace := by
        rw [beat_trace, beat_trace, hdriver, htrace, hmoment, hsurroundings, hcall]
      exact ih hstep htold hrest

end Session

/-! ### Calls on a driver -/

namespace Driver

/-- The call brings no script of its own. -/
def Call.Plain (call : Call) : Prop := ∀ script, call ≠ .activate (some script)

variable {d : Driver} (m : Moment) (w : Surroundings)

theorem isRunning_iff (d : Driver) : d.isRunning = true ↔ d.status = .running := by
  simp [isRunning]

theorem stop_of_not_running (h : d.status ≠ .running) : d.stop = (d, []) := by
  rw [stop, if_pos]
  simpa [isRunning] using h

theorem tick_of_not_running (h : d.status ≠ .running) : d.tick m w = (d, []) := by
  rw [tick, if_pos]
  simpa [isRunning] using h

theorem stop_of_running {script : Script} (h : d.status = .running)
    (hscript : d.script = some script) :
    d.stop = ({ d with script := some script.finish.1, status := .stopped },
      script.finish.2 ++ [.event .stopped]) := by
  rw [stop, if_neg (by simpa [isRunning] using h), hscript]

theorem stop_of_none (h : d.status = .running) (hscript : d.script = none) :
    d.stop = ({ d with status := .stopped }, [.event .stopped]) := by
  rw [stop, if_neg (by simpa [isRunning] using h), hscript]

theorem tick_of_none (h : d.status = .running) (hscript : d.script = none) :
    d.tick m w = ({ d with status := .idle }, []) := by
  rw [tick, if_neg (by simpa [isRunning] using h), hscript]

theorem tick_of_hasStopped {script : Script} (h : d.status = .running)
    (hscript : d.script = some script) (hstop : script.hasStopped w = true) :
    d.tick m w =
      ({ d with
          script := some script.finish.1
          status := if w.active then .finished else .stopped },
        script.finish.2 ++ [.event (if w.active then .finished else .stopped)]) := by
  rw [tick, if_neg (by simpa [isRunning] using h), hscript]
  cases hactive : w.active <;> simp [hstop]

theorem tick_of_not_hasStopped {script : Script} (h : d.status = .running)
    (hscript : d.script = some script) (hgoes : script.hasStopped w = false) :
    d.tick m w = ({ d with script := some (script.update m w).1 }, (script.update m w).2) := by
  rw [tick, if_neg (by simpa [isRunning] using h), hscript]
  simp [hgoes]

theorem stop_status_ne_running (d : Driver) : d.stop.1.status ≠ .running := by
  by_cases h : d.status = .running
  · rw [stop, if_neg (by simpa [isRunning] using h)]
    cases d.script <;> simp
  · rwa [stop_of_not_running h]

/-- An activation is a stop followed by the activation of a driver that does not run. -/
theorem activate_eq (override : Option Script) (d : Driver) :
    (d.activate w override).1 =
      ((d.stop.1.activate w override).1.1, d.stop.2 ++ (d.stop.1.activate w override).1.2) := by
  rw [activate, activate, stop_of_not_running d.stop_status_ne_running]
  cases hscript : (override <|> d.stop.1.default) with
  | none => simp only [hscript, List.append_nil]
  | some script => simp only [hscript, List.nil_append, List.append_assoc]

theorem stop_default (d : Driver) : d.stop.1.default = d.default := by
  rw [stop]
  split
  · rfl
  · cases d.script <;> rfl

theorem stop_report (d : Driver) : d.stop.1.report = d.report := by
  rw [stop]
  split
  · rfl
  · cases d.script <;> rfl

theorem activate_of_none {override : Option Script} (h : d.status ≠ .running)
    (hnone : (override <|> d.default) = none) :
    d.activate w override =
      (({ d with script := none, status := .idle }, []), .error .missingScript) := by
  rw [activate, stop_of_not_running h]
  simp only [hnone]

theorem activate_of_some {override : Option Script} {script : Script} (h : d.status ≠ .running)
    (hsome : (override <|> d.default) = some script) :
    d.activate w override =
      (({ d with
            script := some ((script.init w).1.start w).1
            status := .running
            report := (script.init w).2 },
          (script.init w).2.happenings.map .event ++ ((script.init w).1.start w).2 ++
            [.event .activated]),
        .ok (script.init w).2) := by
  rw [activate, stop_of_not_running h]
  simp only [hsome, List.nil_append]

theorem tick_default (d : Driver) : (d.tick m w).1.default = d.default := by
  rw [tick]
  split
  · rfl
  · cases d.script with
    | none => rfl
    | some script => cases hstop : script.hasStopped w <;> simp [hstop]

theorem tick_report (d : Driver) : (d.tick m w).1.report = d.report := by
  rw [tick]
  split
  · rfl
  · cases d.script with
    | none => rfl
    | some script => cases hstop : script.hasStopped w <;> simp [hstop]

theorem activate_default (override : Option Script) (d : Driver) :
    (d.activate w override).1.1.default = d.default := by
  rw [activate_eq, ← d.stop_default]
  cases hfound : (override <|> d.stop.1.default) with
  | none => rw [activate_of_none w d.stop_status_ne_running hfound]
  | some script => rw [activate_of_some w d.stop_status_ne_running hfound]

theorem call_default (d : Driver) (call : Call) : (d.call m w call).1.default = d.default := by
  cases call with
  | activate override => exact d.activate_default w override
  | tick => exact d.tick_default m w
  | stop => exact d.stop_default

end Driver

theorem Session.run_default (s : Session) (beats : List Beat) :
    (s.run beats).driver.default = s.driver.default := by
  have hbeat : ∀ (t : Session) b, t.driver.default = s.driver.default → True →
      (t.beat b).driver.default = s.driver.default :=
    fun t b h _ => (t.driver.call_default b.moment b.surroundings b.call).trans h
  exact run_keeps hbeat rfl fun _ _ => trivial

end Choreo
