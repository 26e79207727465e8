import Choreo.Proofs.Delivery
import Choreo.Proofs.Restarts
import Choreo.Run.Output

/-!
# Curtailment

A run may be told to make its entity inactive at a tick. Up to there it is the run in which the entity
stays active. At the tick itself the driver sees an inactive entity before it does anything else, and
ends whatever is still open. The ticks of a run begin at one: the script is activated at tick zero,
and an entity that is to become inactive then is never made inactive.
-/

namespace Choreo

/-- The events of a trajectory are those of their ticks, and the ticks are counted from one. -/
structure Trajectory.Timed (t : Trajectory) : Prop where
  opening : ∀ e ∈ t.opening, e.tick = 0
  ticks : t.frames.map (·.record.tick.toNat) = List.range' 1 t.frames.length
  events : ∀ f ∈ t.frames, ∀ e ∈ f.events, e.tick = f.record.tick

/-! ### An end by force -/

/-- The end of a script that is underway ends each open node once, and does nothing else. -/
theorem Script.Underway.count_ended {s : Script} (h : s.Underway) (hids : s.ids.Nodup) {id : Nat}
    (hopen : id ∈ Node.opened s.forest) : (Effect.happenings s.finish.2).count (.ended id) = 1 := by
  obtain ⟨hcourse, hclosed⟩ := h.finish (m := ⟨0, 0⟩) (w := {})
  have hcount := (hcourse.unfolds h.sound hids).count_eq id
  have hstarted : (Effect.happenings s.finish.2).count (.started id) = 0 :=
    List.count_eq_zero.mpr fun hmem => s.started_not_mem_finish id (Node.mem_happenings.mp hmem)
  rw [hclosed, hstarted, if_pos hopen, if_neg (Set.notMem_empty id)] at hcount
  omega

theorem Script.hasStopped_of_inactive {w : Surroundings} (hactive : w.active = false) (s : Script) :
    s.hasStopped w = true := by
  cases s <;> simp [Script.hasStopped, Node.hasStopped, hactive]

namespace Scene

variable {s : Scene} {deactivation : Option UInt64} {k : UInt64}

/-- Calls alone have brought the driver of the scene to where it is. -/
def Reached (s : Scene) : Prop :=
  ∃ default intentions beats, s.driver = ((Session.fresh default intentions).run beats).driver

theorem Reached.call (h : s.Reached) (c : Driver.Call) : (s.call c).1.Reached := by
  obtain ⟨default, intentions, beats, hdriver⟩ := h
  refine ⟨default, intentions, beats ++ [⟨s.moment, s.entity.surroundings, id, c⟩], ?_⟩
  rw [Session.run_concat, Session.beat_driver, ← hdriver]
  rfl

theorem Reached.curtail (h : s.Reached) : (s.curtail deactivation).Reached := by
  rw [Scene.curtail]
  split <;> exact h

theorem Reached.frame (h : s.Reached) : s.frame.2.Reached := h.call .tick

/-- A driver that finds its entity inactive ends what is open, and then the script. -/
theorem Reached.stops (h : s.Reached) (hrunning : s.driver.status = .running)
    (hactive : s.entity.active = false) :
    s.frame.1.status = .stopped ∧
      ∃ held ended, s.driver.script = some held ∧ s.frame.2.driver.script = some ended ∧
        s.frame.1.events =
          (Effect.happenings held.finish.2 ++ [Happening.stopped]).map (·.at s.moment.tick) ∧
        (∀ id ∈ Node.opened held.forest, (Effect.happenings held.finish.2).count (.ended id) = 1) ∧
        Node.opened ended.forest = ∅ := by
  obtain ⟨default, intentions, beats, hdriver⟩ := h
  obtain ⟨held, hheld, hunderway, hids⟩ := Session.underway_of_running (hdriver ▸ hrunning)
  rw [← hdriver] at hheld
  have hinactive : s.entity.surroundings.active = false := hactive
  have htick := Driver.tick_of_hasStopped s.moment _ hrunning hheld
    (held.hasStopped_of_inactive hinactive)
  rw [hinactive] at htick
  rw [frame_eq htick]
  refine ⟨rfl, held, held.finish.1, hheld, rfl, ?_, fun id => hunderway.count_ended hids, ?_⟩
  · rw [Entity.events, Node.happenings_append]
    rfl
  · exact (hunderway.finish (m := ⟨0, 0⟩) (w := {})).2

/-! ### Parts of a run -/

/-- The scene after some ticks, whether its script runs for as long or not. -/
def after (deactivation : Option UInt64) : (ticks : Nat) → Scene → Scene
  | 0, s => s
  | ticks + 1, s => after deactivation ticks (s.later.curtail deactivation).frame.2

theorem curtail_of_ne (h : deactivation ≠ some s.moment.tick) : s.curtail deactivation = s := by
  rw [curtail, if_neg h]

@[simp]
theorem curtail_moment : (s.curtail deactivation).moment = s.moment := by
  rw [curtail]
  split <;> rfl

@[simp]
theorem curtail_driver : (s.curtail deactivation).driver = s.driver := by
  rw [curtail]
  split <;> rfl

@[simp]
theorem frame_moment : s.frame.2.moment = s.moment := rfl

theorem frame_status : s.frame.2.driver.status = s.frame.1.status := rfl

theorem frame_tick : s.frame.1.record.tick = s.moment.tick := rfl

theorem frame_events_tick {e : Event} (he : e ∈ s.frame.1.events) : e.tick = s.moment.tick := by
  obtain ⟨h, _, rfl⟩ := List.mem_map.mp he
  rfl

theorem toNat_later (h : s.moment.tick.toNat + 1 < 2 ^ 64) :
    s.later.moment.tick.toNat = s.moment.tick.toNat + 1 := by
  have hnext : s.later.moment.tick = s.moment.tick + 1 := rfl
  rw [hnext, UInt64.toNat_add, UInt64.toNat_one, Nat.mod_eq_of_lt h]

theorem Reached.after (h : s.Reached) (ticks : Nat) : (s.after deactivation ticks).Reached := by
  induction ticks generalizing s with
  | zero => exact h
  | succ ticks ih => exact ih (Reached.curtail (s := s.later) h).frame

theorem toNat_after {ticks : Nat} (h : s.moment.tick.toNat + ticks < 2 ^ 64) :
    (s.after deactivation ticks).moment.tick.toNat = s.moment.tick.toNat + ticks := by
  induction ticks generalizing s with
  | zero => rfl
  | succ ticks ih =>
      have hlater := toNat_later (s := s) (by omega)
      have hnext := ih (s := (s.later.curtail deactivation).frame.2) (by simp [hlater]; omega)
      rw [after, hnext, frame_moment, curtail_moment, hlater]
      omega

theorem frames_succ (ticks : Nat) :
    s.frames deactivation (ticks + 1) =
      (s.later.curtail deactivation).frame.1 ::
        if (s.later.curtail deactivation).frame.1.status = .running then
          (s.later.curtail deactivation).frame.2.frames deactivation ticks
        else [] := rfl

/-- The frames of a run are those of its first ticks, and if the script runs on, those that follow. -/
theorem frames_add (s : Scene) (deactivation : Option UInt64) (first more : Nat) :
    s.frames deactivation (first + more) = s.frames deactivation first ++
      if ∀ f ∈ s.frames deactivation first, f.status = .running then
        (s.after deactivation first).frames deactivation more
      else [] := by
  induction first generalizing s with
  | zero => simp [frames, after]
  | succ first ih =>
      rw [Nat.succ_add, frames_succ, frames_succ, after]
      by_cases hruns : (s.later.curtail deactivation).frame.1.status = .running
      · simp only [hruns, if_true, List.forall_mem_cons, true_and, List.cons_append, ih]
      · simp [hruns]

theorem length_frames_le (ticks : Nat) : (s.frames deactivation ticks).length ≤ ticks := by
  induction ticks generalizing s with
  | zero => exact le_rfl
  | succ ticks ih =>
      rw [frames_succ, List.length_cons]
      split
      · exact Nat.succ_le_succ ih
      · simp

/-- A script that runs on after every tick runs for all of them. -/
theorem running_after {ticks : Nat} (hrunning : s.driver.status = .running)
    (h : ∀ f ∈ s.frames deactivation ticks, f.status = .running) :
    (s.frames deactivation ticks).length = ticks ∧
      (s.after deactivation ticks).driver.status = .running := by
  induction ticks generalizing s with
  | zero => exact ⟨rfl, hrunning⟩
  | succ ticks ih =>
      rw [frames_succ] at h ⊢
      obtain ⟨hruns, hrest⟩ := List.forall_mem_cons.mp h
      rw [if_pos hruns] at hrest ⊢
      obtain ⟨hlength, hafter⟩ := ih (frame_status.trans hruns) hrest
      exact ⟨by rw [List.length_cons, hlength], hafter⟩

theorem timed_frames {ticks : Nat} (h : s.moment.tick.toNat + ticks < 2 ^ 64) :
    (s.frames deactivation ticks).map (·.record.tick.toNat) =
        List.range' (s.moment.tick.toNat + 1) (s.frames deactivation ticks).length ∧
      ∀ f ∈ s.frames deactivation ticks, ∀ e ∈ f.events, e.tick = f.record.tick := by
  induction ticks generalizing s with
  | zero => simp [frames]
  | succ ticks ih =>
      have hlater := toNat_later (s := s) (by omega)
      obtain ⟨hticks, hevents⟩ :=
        ih (s := (s.later.curtail deactivation).frame.2) (by simp [hlater]; omega)
      rw [frames_succ, List.map_cons, List.length_cons, List.range'_succ, List.forall_mem_cons,
        frame_tick, curtail_moment, hlater]
      rw [frame_moment, curtail_moment, hlater] at hticks
      have hhead : ∀ e ∈ (s.later.curtail deactivation).frame.1.events,
          e.tick = s.later.moment.tick :=
        fun e he => (frame_events_tick he).trans (by rw [curtail_moment])
      split
      · exact ⟨congrArg _ hticks, hhead, hevents⟩
      · exact ⟨rfl, hhead, by simp⟩

theorem tick_le_of_mem_frames {ticks : Nat} (h : s.moment.tick.toNat + ticks < 2 ^ 64) {f : Frame}
    (hf : f ∈ s.frames deactivation ticks) :
    f.record.tick.toNat ≤ s.moment.tick.toNat + (s.frames deactivation ticks).length := by
  have hmem := List.mem_map_of_mem (f := fun f : Frame => f.record.tick.toNat) hf
  rw [(timed_frames h).1, List.mem_range'_1] at hmem
  omega

/-- A run in which the tick of the deactivation does not come is one without deactivation. -/
theorem frames_of_apart {ticks : Nat} (h : s.moment.tick.toNat + ticks < 2 ^ 64)
    (hapart : k.toNat ≤ s.moment.tick.toNat ∨ s.moment.tick.toNat + ticks < k.toNat) :
    s.frames (some k) ticks = s.frames none ticks ∧ s.after (some k) ticks = s.after none ticks := by
  induction ticks generalizing s with
  | zero => exact ⟨rfl, rfl⟩
  | succ ticks ih =>
      have hlater := toNat_later (s := s) (by omega)
      have hne : some k ≠ some s.later.moment.tick := by
        intro heq
        have htick := congrArg UInt64.toNat (Option.some.inj heq)
        omega
      obtain ⟨hframes, hafter⟩ := ih (s := s.later.frame.2) (by simp [hlater]; omega)
        (by simp [hlater]; omega)
      rw [frames_succ, frames_succ, after, after, curtail_of_ne hne, curtail_of_ne (by simp)]
      exact ⟨by rw [hframes], hafter⟩

/-- In the tick of its deactivation, a running scene that has come to it stops. -/
theorem Reached.curtailed (h : s.Reached) (hrunning : s.driver.status = .running)
    (htick : s.later.moment.tick = k) :
    let struck := (s.later.curtail (some k)).frame
    struck.1.record.tick = k ∧ struck.1.status = .stopped ∧
      ∃ held ended, s.driver.script = some held ∧ struck.2.driver.script = some ended ∧
        struck.1.events = (Effect.happenings held.finish.2 ++ [Happening.stopped]).map (·.at k) ∧
        (∀ id ∈ Node.opened held.forest, (Effect.happenings held.finish.2).count (.ended id) = 1) ∧
        Node.opened ended.forest = ∅ := by
  intro struck
  have hreached : (s.later.curtail (some k)).Reached := Reached.curtail (s := s.later) h
  have hactive : (s.later.curtail (some k)).entity.active = false := by
    rw [Scene.curtail, if_pos (congrArg some htick.symm)]
  have hmoment : (s.later.curtail (some k)).moment.tick = k := by rw [curtail_moment, htick]
  obtain ⟨hstatus, held, ended, hheld, hended, hevents, hcount, hclosed⟩ :=
    hreached.stops (by rw [curtail_driver]; exact hrunning) hactive
  rw [curtail_driver] at hheld
  rw [hmoment] at hevents
  exact ⟨hmoment, hstatus, held, ended, hheld, hended, hevents, hcount, hclosed⟩

/-- A run with a deactivation is one without it, unless the script still runs when its tick comes:
then that tick is the last. -/
theorem Reached.frames_some (h : s.Reached) (hrunning : s.driver.status = .running)
    (hzero : s.moment.tick.toNat = 0) (hk : k ≠ 0) {ticks : Nat} (hticks : ticks < 2 ^ 64) :
    let kept := s.frames none (k.toNat - 1)
    let before := s.after none (k.toNat - 1)
    (s.frames none ticks).length < k.toNat ∧ s.frames (some k) ticks = s.frames none ticks ∨
      kept.length + 1 = k.toNat ∧ before.later.moment.tick = k ∧ before.driver.status = .running ∧
        (∃ rest, s.frames none ticks = kept ++ before.later.frame.1 :: rest) ∧
        s.frames (some k) ticks = kept ++ [(before.later.curtail (some k)).frame.1] := by
  intro kept before
  have hlt := k.toNat_lt
  have hpos : k.toNat ≠ 0 := fun heq => hk (UInt64.toNat_inj.mp heq)
  rcases Nat.lt_or_ge ticks k.toNat with hshort | hlong
  · exact Or.inl ⟨lt_of_le_of_lt (length_frames_le ticks) hshort,
      (frames_of_apart (by omega) (by omega)).1⟩
  -- Up to the tick before, the two runs are one.
  obtain ⟨more, rfl⟩ : ∃ more, ticks = (k.toNat - 1) + (more + 1) := ⟨ticks - k.toNat, by omega⟩
  obtain ⟨hkept, hbefore⟩ : s.frames (some k) (k.toNat - 1) = kept ∧
      s.after (some k) (k.toNat - 1) = before := frames_of_apart (by omega) (by omega)
  have hcut := s.frames_add (some k) (k.toNat - 1) (more + 1)
  rw [hkept, hbefore] at hcut
  rw [hcut, s.frames_add none (k.toNat - 1) (more + 1)]
  by_cases hruns : ∀ f ∈ kept, f.status = .running
  · obtain ⟨hlength, hstill⟩ : kept.length = k.toNat - 1 ∧ before.driver.status = .running :=
      running_after hrunning hruns
    have htick : before.later.moment.tick = k := by
      have hcount : before.moment.tick.toNat = k.toNat - 1 := by
        rw [toNat_after (by omega), hzero, Nat.zero_add]
      have hlater := toNat_later (s := before) (by omega)
      exact UInt64.toNat_inj.mp (by omega)
    have hstops := ((h.after _).curtailed hstill htick).2.1
    refine Or.inr ⟨by omega, htick, hstill, ?_, ?_⟩
    · rw [if_pos hruns, frames_succ, curtail_of_ne (by simp)]
      exact ⟨_, rfl⟩
    · rw [if_pos hruns, frames_succ, hstops, if_neg (by simp)]
  · have hlength : kept.length ≤ k.toNat - 1 := length_frames_le _
    rw [if_neg hruns, if_neg hruns, List.append_nil]
    exact Or.inl ⟨(hlength.trans_lt (Nat.sub_one_lt hpos)), rfl⟩

end Scene

/-! ### Whole runs -/

namespace Settings

variable (settings : Settings) (script : Script)

theorem run_eq (deactivation : Option UInt64) :
    { settings with deactivation := deactivation }.run script =
      ⟨((Scene.prepare settings script).call (.activate none)).2,
        (settings.opened script).frames deactivation settings.ticks.toNat⟩ := rfl

theorem opened_reached : (settings.opened script).Reached :=
  Scene.Reached.call ⟨some script, .all, [], rfl⟩ _

theorem opened_running : (settings.opened script).driver.status = .running := by
  have hsome : (none <|> some script) = some script := rfl
  have hactivate := Driver.activate_of_some (Entity.spawn settings).surroundings
    (d := { default := some script }) (by simp) hsome
  exact congrArg (·.1.1.status) hactivate

theorem opened_tick : (settings.opened script).moment.tick.toNat = 0 := rfl

theorem opened_wrap :
    (settings.opened script).moment.tick.toNat + settings.ticks.toNat < 2 ^ 64 := by
  rw [opened_tick]
  simpa using settings.ticks.toNat_lt

theorem run_timed : (settings.run script).Timed := by
  obtain ⟨hticks, hevents⟩ :=
    @Scene.timed_frames _ settings.deactivation _ (settings.opened_wrap script)
  refine ⟨fun e he => ?_, hticks, hevents⟩
  obtain ⟨h, _, rfl⟩ := List.mem_map.mp he
  rfl

end Settings

/-- **A deactivation cuts a run short.** A run in which the entity becomes inactive at a tick other
than zero is the run in which it stays active, if that is over before the tick. Otherwise the two have
the same frames before the tick, and at the tick the one with the deactivation ends each open node
and stops; what it prints ends with the lines of this tick. -/
theorem deactivation_cuts_run (settings : Settings) (script : Script) {k : UInt64} (hk : k ≠ 0) :
    let free := { settings with deactivation := none }.run script
    let cut := { settings with deactivation := some k }.run script
    let kept := (settings.opened script).frames none (k.toNat - 1)
    let before := (settings.opened script).after none (k.toNat - 1)
    let struck := (before.later.curtail (some k)).frame
    free.Timed ∧ cut.Timed ∧ (∀ f ∈ cut.frames, k ≤ f.record.tick → f.status ≠ .running) ∧
      (free.frames.length < k.toNat → cut = free) ∧
      (k.toNat ≤ free.frames.length →
        kept.length + 1 = k.toNat ∧
        (∃ rest, free = ⟨free.opening, kept ++ before.later.frame.1 :: rest⟩) ∧
        cut = ⟨free.opening, kept ++ [struck.1]⟩ ∧
        (∀ o : Selection, o.lines cut =
          o.lines ⟨free.opening, kept⟩ ++ o.eventLines struck.1.events ++
            o.recordLines struck.1.record) ∧
        struck.1.record.tick = k ∧ struck.1.status = .stopped ∧
        ∃ held ended, before.driver.script = some held ∧ struck.2.driver.script = some ended ∧
          struck.1.events = (Effect.happenings held.finish.2 ++ [Happening.stopped]).map (·.at k) ∧
          (∀ id ∈ Node.opened held.forest,
            (Effect.happenings held.finish.2).count (.ended id) = 1) ∧
          Node.opened ended.forest = ∅) := by
  intro free cut kept before struck
  have hreached := settings.opened_reached script
  have hzero := settings.opened_tick script
  have hwrap : (settings.opened script).moment.tick.toNat + settings.ticks.toNat < 2 ^ 64 :=
    settings.opened_wrap script
  have hfree : free.Timed := Settings.run_timed _ script
  have hcut : cut.Timed := Settings.run_timed _ script
  refine ⟨hfree, hcut, ?_⟩
  rcases hreached.frames_some (settings.opened_running script) (settings.opened_tick script) hk
      settings.ticks.toNat_lt with
    ⟨hlength, hsame⟩ | ⟨(hkept : kept.length + 1 = k.toNat), htick, hrunning, ⟨rest, hrest⟩, hlast⟩
  · have heq : cut = free := congrArg (Trajectory.mk free.opening) hsame
    refine ⟨fun f hf hlate => ?_, fun _ => heq, fun hlong => absurd hlength (Nat.not_lt.mpr hlong)⟩
    rw [heq] at hf
    have hearly := Scene.tick_le_of_mem_frames hwrap hf
    rw [hzero, Nat.zero_add] at hearly
    exact absurd (hearly.trans_lt hlength) (Nat.not_lt.mpr hlate)
  · have heq : cut = ⟨free.opening, kept ++ [struck.1]⟩ :=
      congrArg (Trajectory.mk free.opening) hlast
    have hwhole : free = ⟨free.opening, kept ++ before.later.frame.1 :: rest⟩ :=
      congrArg (Trajectory.mk free.opening) hrest
    obtain ⟨hmoment, hstatus, hstops⟩ := (hreached.after _).curtailed hrunning htick
    refine ⟨fun f hf hlate => ?_, fun hshort => ?_, fun _ => ⟨hkept, ⟨rest, hwhole⟩, heq, fun o => ?_,
      hmoment, hstatus, hstops⟩⟩
    · rw [heq] at hf
      rcases List.mem_append.mp hf with hf | hf
      · have hlt := k.toNat_lt
        have hearly := Scene.tick_le_of_mem_frames (by omega) hf
        rw [hzero, Nat.zero_add] at hearly
        exact absurd (hearly.trans_lt (by omega : kept.length < k.toNat)) (Nat.not_lt.mpr hlate)
      · rw [List.mem_singleton.mp hf, hstatus]
        simp
    · have hlong : k.toNat ≤ free.frames.length := by
        rw [hwhole, List.length_append, List.length_cons]
        omega
      exact absurd hshort (Nat.not_lt.mpr hlong)
    · rw [heq]
      simp [Selection.lines, Selection.frameLines]

/-- A wait of five seconds inside a sequence, cut after one of them. -/
theorem deactivation_cuts_run_nap :
    let script : Script := .tree (.sequence {} [.leaf {} (.wait { duration := 5 })] (.ready 0))
    let settings : Settings := { step := 1 }
    let free := { settings with deactivation := none }.run script
    let cut := { settings with deactivation := some 2 }.run script
    (2 : UInt64) ≠ 0 ∧ free.frames.length = 7 ∧
      ∃ first last, cut.frames = [first, last] ∧ last.status = .stopped ∧ last.record.tick = 2 ∧
        last.events =
          [⟨2, "node.end", some 1⟩, ⟨2, "node.end", some 0⟩, ⟨2, "script.stop", none⟩] := by
  intro script settings free cut
  have hlength : free.frames.length = 7 := by decide +kernel
  obtain ⟨_, _, _, _, hcut⟩ := deactivation_cuts_run settings script (k := 2) (by decide)
  obtain ⟨_, _, hcut, _, htick, hstatus, _⟩ := hcut (by rw [hlength]; decide)
  exact ⟨by decide, hlength, _, _, congrArg Trajectory.frames hcut, hstatus, htick, rfl⟩

/-- A run whose entity is to become inactive at tick zero never makes it inactive. -/
theorem Settings.run_deactivated_at_zero (settings : Settings) (script : Script) :
    { settings with deactivation := some 0 }.run script =
      { settings with deactivation := none }.run script := by
  have hsame := (Scene.frames_of_apart (k := 0) (settings.opened_wrap script)
    (Or.inl (Nat.zero_le _))).1
  rw [run_eq, run_eq, hsame]

/-- The wait of a twentieth of a second is still running after tick one. -/
theorem deactivation_at_zero_is_missed :
    let run := Settings.run { deactivation := some 0 } (.tree (.leaf {} (.wait { duration := 0.05 })))
    ∃ f ∈ run.frames, 0 ≤ f.record.tick ∧ f.status = .running := by
  decide +kernel

end Choreo
