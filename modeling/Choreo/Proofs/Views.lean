import Choreo.Proofs.Curtailment
import Choreo.Proofs.Lifetime
import Choreo.Proofs.Lines
import Choreo.Proofs.RoundTrip

/-!
# Views of a run

Whatever is asked for, a run goes the same way, and its output is what is left of one trajectory: the
records of the ticks up to the last, all of them or those in which something happened, and among them
the events, if they are asked for. The last tick is the first after which the script does not run,
unless the ticks are used up before.
-/

namespace Choreo

/-! ### The ticks of a run -/

namespace Scene

variable {s : Scene} {deactivation : Option UInt64}

/-- What happens in a tick, counted from one, whether the script still runs or not. -/
def frameAt (deactivation : Option UInt64) (s : Scene) (tick : ℕ) : Frame :=
  ((s.after deactivation (tick - 1)).later.curtail deactivation).frame.1

/-- The first tick after which the script does not run, if there is one. -/
noncomputable def halt (deactivation : Option UInt64) (s : Scene) : ℕ∞ :=
  ⨅ tick ∈ {tick : ℕ | (s.after deactivation tick).driver.status ≠ .running}, (tick : ℕ∞)

/-- A scene is a system that is spent when its script does not run. -/
theorem halt_eq_lifetime : s.halt deactivation =
    lifetime (·.driver.status != .running) (fun d s => (s.later.curtail d).frame.2)
      (Stream'.const deactivation) s := by
  have hafter : ∀ (tick : ℕ) (s : Scene),
      Choreo.after (fun d s => (s.later.curtail d).frame.2) tick (Stream'.const deactivation) s =
        s.after deactivation tick := by
    intro tick
    induction tick with
    | zero => exact fun _ => rfl
    | succ tick ih => exact fun s => ih _
  simp [halt, lifetime, hafter]

theorem halt_of_not_running (h : s.driver.status ≠ .running) : s.halt deactivation = 0 := by
  rw [halt_eq_lifetime]
  exact lifetime_of_spent (by simpa using h)

theorem halt_of_running (h : s.driver.status = .running) : s.halt deactivation =
    1 + (s.later.curtail deactivation).frame.2.halt deactivation := by
  rw [halt_eq_lifetime, halt_eq_lifetime]
  exact lifetime_of_not_spent (by simpa using h)

/-- A run goes on until its script does not run, or its ticks are used up. -/
theorem length_frames (h : s.driver.status = .running) (ticks : ℕ) :
    ((s.frames deactivation ticks).length : ℕ∞) = min (ticks : ℕ∞) (s.halt deactivation) := by
  induction ticks generalizing s with
  | zero => simp [frames]
  | succ ticks ih =>
      rw [frames_succ, halt_of_running h, List.length_cons, Nat.cast_succ, Nat.cast_succ,
        add_comm (ticks : ℕ∞), add_comm _ (1 : ℕ∞), min_add_add_left]
      by_cases hruns : (s.later.curtail deactivation).frame.1.status = .running
      · rw [if_pos hruns, ih (frame_status.trans hruns)]
      · have hhalt : (s.later.curtail deactivation).frame.2.halt deactivation = 0 :=
          halt_of_not_running (by rwa [frame_status])
        rw [if_neg hruns, hhalt]
        simp

theorem frames_eq_map (ticks : ℕ) : s.frames deactivation ticks =
    (List.range' 1 (s.frames deactivation ticks).length).map (s.frameAt deactivation) := by
  induction ticks generalizing s with
  | zero => rfl
  | succ ticks ih =>
      let s' := (s.later.curtail deactivation).frame.2
      rw [frames_succ, List.length_cons, List.range'_succ, List.map_cons]
      refine congrArg₂ List.cons rfl ?_
      split
      · have hlater : ∀ tick ∈ List.range' 1 (s'.frames deactivation ticks).length,
            s'.frameAt deactivation tick = s.frameAt deactivation (1 + tick) := by
          intro tick htick
          obtain ⟨before, rfl⟩ := Nat.exists_eq_add_of_le' (List.mem_range'_1.mp htick).1
          rw [Nat.add_comm 1]
          rfl
        rw [← List.map_add_range', List.map_map]
        exact ih.trans (List.map_congr_left hlater)
      · rfl

end Scene

/-! ### What is shown of a trajectory -/

/-- An event is that of a happening. -/
def Event.Genuine (e : Event) : Prop := ∃ h : Happening, h.at e.tick = e

theorem Entity.events_genuine {m : Moment} {effects : List Effect} :
    ∀ e ∈ Entity.events m effects, e.Genuine := by
  intro e he
  obtain ⟨h, _, rfl⟩ := List.mem_map.mp he
  exact ⟨h, rfl⟩

/-- A line may stand before those of its tick and of later ones, and that of a record only before
those of later ticks. -/
def Precedes (a b : String) : Prop :=
  lineTick a ≤ lineTick b ∧ (namesPosition a = true → lineTick a < lineTick b)

theorem Precedes.of_not_namesPosition {a b : String} (ha : namesPosition a = false)
    (h : lineTick a ≤ lineTick b) : Precedes a b :=
  ⟨h, fun hposition => by simp [ha] at hposition⟩

/-- In lines that stand in order, the ticks go up, and nothing of a tick stands behind its record. -/
def Chronological (lines : List String) : Prop := lines.Pairwise Precedes

namespace Event.Genuine

variable {e : Event}

theorem lineTick_line (he : e.Genuine) (json : Bool) : lineTick (e.line json) = e.tick.toNat := by
  obtain ⟨h, hat⟩ := he
  rw [← hat, h.lineTick_line]
  rfl

theorem namesPosition_line (he : e.Genuine) (json : Bool) :
    namesPosition (e.line json) = false := by
  obtain ⟨h, hat⟩ := he
  rw [← hat, h.namesPosition_line]

theorem newline_not_mem_line (he : e.Genuine) (json : Bool) : '\n' ∉ (e.line json).toList := by
  obtain ⟨h, hat⟩ := he
  rw [← hat]
  exact h.newline_not_mem_line _ json

end Event.Genuine

namespace Trajectory

/-- All that a run tells, from the activation on. -/
def events (t : Trajectory) : List Event := t.opening ++ t.frames.flatMap (·.events)

/-- The events of a trajectory are those of happenings. -/
structure Genuine (t : Trajectory) : Prop where
  opening : ∀ e ∈ t.opening, e.Genuine
  frames : ∀ f ∈ t.frames, ∀ e ∈ f.events, e.Genuine

end Trajectory

namespace Selection

variable (o : Selection) {t : Trajectory} {events : List Event}

theorem exists_of_mem_eventLines {line : String} (h : line ∈ o.eventLines events) :
    ∃ e ∈ events, e.line o.json = line := by
  rw [eventLines] at h
  split at h
  · exact List.mem_map.mp h
  · cases h

theorem eq_of_mem_recordLines {line : String} {r : Record} (h : line ∈ o.recordLines r) :
    line = r.line o.json := by
  rw [recordLines] at h
  split at h
  · exact List.mem_singleton.mp h
  · cases h

theorem eventLines_append (events more : List Event) :
    o.eventLines (events ++ more) = o.eventLines events ++ o.eventLines more := by
  cases htrace : o.trace <;> simp [eventLines, htrace]

theorem eventLines_flatMap (frames : List Frame) :
    o.eventLines (frames.flatMap (·.events)) = frames.flatMap fun f => o.eventLines f.events := by
  cases htrace : o.trace <;> simp [eventLines, htrace, List.map_flatMap]

/-- The records that are shown. -/
theorem flatMap_recordLines (frames : List Frame) :
    (frames.flatMap fun f => o.recordLines f.record) =
      (frames.filter fun f => o.all || f.record.isEventful).map fun f => f.record.line o.json := by
  induction frames with
  | nil => rfl
  | cons f rest ih =>
      rw [List.flatMap_cons, ih, recordLines, List.filter_cons]
      split <;> rfl

theorem lines_of_not_trace (h : o.trace = false) :
    o.lines t = t.frames.flatMap fun f => o.recordLines f.record := by
  have hnone : ∀ events, o.eventLines events = [] := fun events => by simp [eventLines, h]
  have hframe : ∀ f ∈ t.frames, o.frameLines f = o.recordLines f.record := fun f _ => by
    rw [frameLines, hnone, List.nil_append]
  rw [lines, hnone, List.nil_append, List.flatMap_congr hframe]

/-! ### Lines of events and lines of records -/

theorem namesPosition_of_mem_eventLines (hevents : ∀ e ∈ events, e.Genuine) :
    ∀ line ∈ o.eventLines events, namesPosition line = false := by
  intro line hline
  obtain ⟨e, he, rfl⟩ := o.exists_of_mem_eventLines hline
  exact (hevents e he).namesPosition_line o.json

theorem namesPosition_of_mem_recordLines (r : Record) :
    ∀ line ∈ o.recordLines r, namesPosition line = true := by
  intro line hline
  rw [o.eq_of_mem_recordLines hline, r.namesPosition_line]

theorem filter_eventLines (hevents : ∀ e ∈ events, e.Genuine) :
    (o.eventLines events).filter namesPosition = [] ∧
      (o.eventLines events).filter (!namesPosition ·) = o.eventLines events := by
  have hnone := o.namesPosition_of_mem_eventLines hevents
  rw [List.filter_eq_nil_iff, List.filter_eq_self]
  exact ⟨fun line hline => by simp [hnone line hline], fun line hline => by simp [hnone line hline]⟩

theorem filter_recordLines (r : Record) :
    (o.recordLines r).filter namesPosition = o.recordLines r ∧
      (o.recordLines r).filter (!namesPosition ·) = [] := by
  have hall := o.namesPosition_of_mem_recordLines r
  rw [List.filter_eq_nil_iff, List.filter_eq_self]
  exact ⟨hall, fun line hline => by simp [hall line hline]⟩

/-- The lines that name a position are those of the records. -/
theorem filter_lines (ht : t.Genuine) :
    (o.lines t).filter namesPosition = t.frames.flatMap fun f => o.recordLines f.record := by
  rw [lines, List.filter_append, (o.filter_eventLines ht.opening).1, List.nil_append,
    List.filter_flatMap]
  refine List.flatMap_congr fun f hf => ?_
  rw [frameLines, List.filter_append, (o.filter_eventLines (ht.frames f hf)).1,
    (o.filter_recordLines _).1, List.nil_append]

/-- The other lines are those of the events. -/
theorem filter_not_lines (ht : t.Genuine) :
    (o.lines t).filter (!namesPosition ·) = o.eventLines t.events := by
  rw [lines, List.filter_append, (o.filter_eventLines ht.opening).2, List.filter_flatMap,
    Trajectory.events, eventLines_append, eventLines_flatMap]
  refine congrArg _ (List.flatMap_congr fun f hf => ?_)
  rw [frameLines, List.filter_append, (o.filter_eventLines (ht.frames f hf)).2,
    (o.filter_recordLines _).2, List.append_nil]

/-! ### The order of the lines -/

theorem lineTick_of_mem_eventLines (hevents : ∀ e ∈ events, e.Genuine) {tick : UInt64}
    (htick : ∀ e ∈ events, e.tick = tick) :
    ∀ line ∈ o.eventLines events, lineTick line = tick.toNat := by
  intro line hline
  obtain ⟨e, he, rfl⟩ := o.exists_of_mem_eventLines hline
  rw [(hevents e he).lineTick_line, htick e he]

theorem lineTick_of_mem_frameLines (ht : t.Genuine) (htimed : t.Timed) {f : Frame}
    (hf : f ∈ t.frames) : ∀ line ∈ o.frameLines f, lineTick line = f.record.tick.toNat := by
  intro line hline
  rcases List.mem_append.mp hline with hline | hline
  · exact o.lineTick_of_mem_eventLines (ht.frames f hf) (htimed.events f hf) line hline
  · rw [o.eq_of_mem_recordLines hline, Record.lineTick_line]

theorem chronological_eventLines (hevents : ∀ e ∈ events, e.Genuine) {tick : UInt64}
    (htick : ∀ e ∈ events, e.tick = tick) : Chronological (o.eventLines events) := by
  have hline := o.lineTick_of_mem_eventLines hevents htick
  refine List.pairwise_of_forall_mem_list fun a ha b hb => ?_
  exact .of_not_namesPosition (o.namesPosition_of_mem_eventLines hevents a ha)
    (by rw [hline a ha, hline b hb])

theorem chronological_frameLines (ht : t.Genuine) (htimed : t.Timed) {f : Frame}
    (hf : f ∈ t.frames) : Chronological (o.frameLines f) := by
  have hframe := o.lineTick_of_mem_frameLines ht htimed hf
  have hrecord : Chronological (o.recordLines f.record) := by
    rw [recordLines]
    split
    · exact List.pairwise_singleton ..
    · exact .nil
  rw [frameLines] at hframe ⊢
  -- One tick has one record at most, and it stands last.
  refine List.pairwise_append.mpr
    ⟨o.chronological_eventLines (ht.frames f hf) (htimed.events f hf), hrecord, fun a ha b hb => ?_⟩
  exact .of_not_namesPosition (o.namesPosition_of_mem_eventLines (ht.frames f hf) a ha)
    (by rw [hframe a (List.mem_append_left _ ha), hframe b (List.mem_append_right _ hb)])

theorem chronological_lines (ht : t.Genuine) (htimed : t.Timed) : Chronological (o.lines t) := by
  have hframe := fun f => o.lineTick_of_mem_frameLines (f := f) ht htimed
  have hrising : t.frames.Pairwise fun f g => f.record.tick.toNat < g.record.tick.toNat := by
    rw [← List.pairwise_map, htimed.ticks]
    exact List.pairwise_lt_range' 1
  rw [lines]
  refine List.pairwise_append.mpr ⟨o.chronological_eventLines ht.opening htimed.opening,
    List.pairwise_flatMap.mpr ⟨fun f hf => o.chronological_frameLines ht htimed hf, ?_⟩,
    fun a ha b hb => ?_⟩
  · refine hrising.imp_of_mem fun {f g} hf hg hlt a ha b hb => ?_
    rw [Precedes, hframe f hf a ha, hframe g hg b hb]
    exact ⟨hlt.le, fun _ => hlt⟩
  · exact .of_not_namesPosition (o.namesPosition_of_mem_eventLines ht.opening a ha)
      (by rw [o.lineTick_of_mem_eventLines ht.opening htimed.opening a ha]; exact Nat.zero_le _)

theorem newline_not_mem_lines (ht : t.Genuine) : ∀ line ∈ o.lines t, '\n' ∉ line.toList := by
  have hevents : ∀ events : List Event, (∀ e ∈ events, e.Genuine) →
      ∀ line ∈ o.eventLines events, '\n' ∉ line.toList := by
    intro events hevents line hline
    obtain ⟨e, he, rfl⟩ := o.exists_of_mem_eventLines hline
    exact (hevents e he).newline_not_mem_line o.json
  intro line hline
  rcases List.mem_append.mp hline with hline | hline
  · exact hevents _ ht.opening line hline
  · obtain ⟨f, hf, hline⟩ := List.mem_flatMap.mp hline
    rcases List.mem_append.mp hline with hline | hline
    · exact hevents _ (ht.frames f hf) line hline
    · rw [o.eq_of_mem_recordLines hline]
      exact f.record.newline_not_mem_line o.json

end Selection

/-! ### What is printed -/

namespace Settings

variable (settings : Settings) (script : Script)

/-- The number of the last tick of a run. -/
def lastTick : ℕ := (settings.run script).frames.length

theorem lastTick_eq : (settings.lastTick script : ℕ∞) =
    min (settings.ticks.toNat : ℕ∞) ((settings.opened script).halt settings.deactivation) :=
  Scene.length_frames (settings.opened_running script) _

/-- What happens in a tick of a run, whether the script still runs or not. -/
def frameAt (tick : ℕ) : Frame := (settings.opened script).frameAt settings.deactivation tick

theorem run_frames : (settings.run script).frames =
    (List.range' 1 (settings.lastTick script)).map (settings.frameAt script) :=
  Scene.frames_eq_map _

theorem frameAt_mem {tick : ℕ} (h : tick ∈ List.range' 1 (settings.lastTick script)) :
    settings.frameAt script tick ∈ (settings.run script).frames := by
  rw [run_frames]
  exact List.mem_map_of_mem h

theorem frameAt_tick {tick : ℕ} (h : tick ∈ List.range' 1 (settings.lastTick script)) :
    (settings.frameAt script tick).record.tick.toNat = tick := by
  have hticks := (settings.run_timed script).ticks
  rw [← lastTick, run_frames, List.map_map] at hticks
  exact List.map_inj_left.mp (hticks.trans (List.map_id _).symm) tick h

theorem run_genuine : (settings.run script).Genuine where
  opening := Entity.events_genuine
  frames := by
    rw [run_frames]
    intro f hf
    obtain ⟨tick, _, rfl⟩ := List.mem_map.mp hf
    exact Entity.events_genuine

theorem lineTick_opening (json : Bool) :
    ∀ e ∈ (settings.run script).opening, lineTick (e.line json) = 0 := by
  intro e he
  rw [((settings.run_genuine script).opening e he).lineTick_line,
    (settings.run_timed script).opening e he]
  rfl

theorem lineTick_events (json : Bool) {tick : ℕ}
    (h : tick ∈ List.range' 1 (settings.lastTick script)) :
    ∀ e ∈ (settings.frameAt script tick).events, lineTick (e.line json) = tick := by
  intro e he
  have hmem := settings.frameAt_mem script h
  rw [((settings.run_genuine script).frames _ hmem e he).lineTick_line,
    (settings.run_timed script).events _ hmem e he, settings.frameAt_tick script h]

theorem run_events : (settings.run script).events = (settings.run script).opening ++
    (List.range' 1 (settings.lastTick script)).flatMap
      fun tick => (settings.frameAt script tick).events := by
  rw [Trajectory.events, run_frames, List.flatMap_map]

/-- The lines of the records that are shown. -/
theorem recordLines_run (o : Selection) :
    ((settings.run script).frames.flatMap fun f => o.recordLines f.record) =
      ((List.range' 1 (settings.lastTick script)).filter
        fun tick => o.all || (settings.frameAt script tick).record.isEventful).map
          fun tick => (settings.frameAt script tick).record.line o.json := by
  rw [Selection.flatMap_recordLines, run_frames, List.filter_map, List.map_map]
  rfl

end Settings

namespace Command

variable {read : String → Except ReadFault String} {path : String} {config : Option String}
  {ticks : Option UInt64} {step : Option Single} {settings : Settings} {script : Script}

theorem execute_run (hsettings : settingsFor read config ticks step = .ok settings)
    (hscript : loadScript read path = .ok script) (o : Selection) :
    execute read (.run path config ticks step o) = { lines := o.lines (settings.run script) } := by
  rw [execute, answer, hsettings, hscript]
  rfl

theorem loadScript_json {source : String} (hformat : Format.ofPath? path = some .json)
    (hsource : read path = .ok source) (hjson : Script.ofJson source = .ok script) :
    loadScript read path = .ok script := by
  have hload : Script.load read path = .ok script := by
    rw [Script.load, hformat, ← hjson]
    change ((read path).mapError _ >>= fun source => Script.ofJson source) = _
    rw [hsource]
    rfl
  rw [loadScript, hload]
  rfl

end Command

open Command in
/-- **The output of a run is one trajectory, seen through filters.** In text as in JSON, a run prints
one line for the record of each tick up to the last, or only the lines of the records in which
something happened; the last tick is the first after which the script does not run, unless the ticks
are used up before. With the events it prints the same lines, and between them one for each event of
the activation and of these ticks: the lines that name no position. They stand before the record of
their tick and behind those of earlier ticks. -/
theorem output_filters_one_trajectory {read : String → Except ReadFault String} {path : String}
    {config : Option String} {ticks : Option UInt64} {step : Option Single} {settings : Settings}
    {script : Script} (hsettings : settingsFor read config ticks step = .ok settings)
    (hscript : loadScript read path = .ok script) (json : Bool) :
    let shown (all trace : Bool) : Selection := { json := json, all := all, trace := trace }
    let printed (all trace : Bool) := execute read (.run path config ticks step (shown all trace))
    let lines (all trace : Bool) := (printed all trace).lines
    let opening := (settings.run script).opening
    let frame := settings.frameAt script
    ∃ last : ℕ,
      (last : ℕ∞) =
        min (settings.ticks.toNat : ℕ∞) ((settings.opened script).halt settings.deactivation) ∧
      (∀ all trace, (printed all trace).failure = none ∧
        (printed all trace).text.toList.splitOn '\n' =
          (lines all trace).map String.toList ++ [[]]) ∧
      lines true false = (List.range' 1 last).map (fun t => (frame t).record.line json) ∧
      (lines true false).map lineTick = List.range' 1 last ∧
      lines false false =
        ((List.range' 1 last).filter fun t => (frame t).record.isEventful).map
          (fun t => (frame t).record.line json) ∧
      (∀ e ∈ opening, lineTick (e.line json) = 0) ∧
      (∀ t ∈ List.range' 1 last, ∀ e ∈ (frame t).events, lineTick (e.line json) = t) ∧
      ∀ all,
        (lines all true).filter namesPosition = lines all false ∧
        (lines all true).filter (!namesPosition ·) =
          (opening ++ (List.range' 1 last).flatMap fun t => (frame t).events).map (·.line json) ∧
        Chronological (lines all true) := by
  intro shown printed lines opening frame
  have hgenuine := settings.run_genuine script
  have htimed := settings.run_timed script
  have hprinted : ∀ all trace,
      printed all trace = { lines := (shown all trace).lines (settings.run script) } :=
    fun all trace => execute_run hsettings hscript _
  have hlines : ∀ all trace, lines all trace = (shown all trace).lines (settings.run script) :=
    fun all trace => congrArg Outcome.lines (hprinted all trace)
  -- Without events, what is left are the records.
  have hplain : ∀ all, lines all false =
      (settings.run script).frames.flatMap fun f => (shown all true).recordLines f.record :=
    fun all => (hlines all false).trans (Selection.lines_of_not_trace _ rfl)
  have hall : lines true false = (List.range' 1 (settings.lastTick script)).map
      fun t => (frame t).record.line json := by
    rw [hplain, settings.recordLines_run script]
    exact congrArg (List.map _) (List.filter_eq_self.mpr fun _ _ => rfl)
  refine ⟨settings.lastTick script, settings.lastTick_eq script, fun all trace => ?_, hall, ?_, ?_,
    settings.lineTick_opening script json, fun t => settings.lineTick_events script json,
    fun all => ⟨?_, ?_, ?_⟩⟩
  · rw [hlines, hprinted]
    exact ⟨rfl, Outcome.splitOn_text (Selection.newline_not_mem_lines _ hgenuine)⟩
  · rw [hall, List.map_map]
    refine (List.map_congr_left fun t ht => ?_).trans (List.map_id _)
    exact ((frame t).record.lineTick_line json).trans (settings.frameAt_tick script ht)
  · rw [hplain, settings.recordLines_run script]
    rfl
  · rw [hlines, hplain, Selection.filter_lines _ hgenuine]
  · rw [hlines, Selection.filter_not_lines _ hgenuine, settings.run_events script]
    rfl
  · rw [hlines]
    exact Selection.chronological_lines _ hgenuine htimed

open Command in
/-- A wait of a second and a jump, in ticks of a second: only the jump is to be seen in a record. -/
theorem output_filters_one_trajectory_hop :
    let script : Script := .tree (.sequence {}
      [.leaf {} (.wait { duration := 1 }), .leaf {} (.jump { impulse := 1 })] (.ready 0))
    let read : String → Except ReadFault String := fun _ => .ok (Json.render (encode script))
    let lines (all trace : Bool) := (execute read
      (.run "s.json" none (some 9) (some 1) { json := false, all := all, trace := trace })).lines
    settingsFor read none (some 9) (some 1) = .ok { ticks := 9, step := 1 } ∧
      loadScript read "s.json" = .ok script ∧
      (lines true false).map lineTick = [1, 2, 3, 4] ∧
      lines false false = ["     2  pos (   0.000,    0.000)  vel (  0.000,   0.000)  jump"] ∧
      (lines false true).filter namesPosition = lines false false ∧
      Chronological (lines false true) := by
  intro script read lines
  have hsettings : settingsFor read none (some 9) (some 1) = .ok { ticks := 9, step := 1 } := rfl
  have hnames : pathNames "s.json" = ["s.json"] := by
    simp +decide [pathNames, String.splitOn, String.splitOnAux]
  have hformat : Format.ofPath? "s.json" = some .json := by
    rw [Format.ofPath?, Format.extension?, hnames]
    decide +kernel
  have hjson : Script.ofJson (Json.render (encode script)) = .ok script :=
    script.ofJson_ok (by decide +kernel) (by decide +kernel) (by decide +kernel)
  have hscript : loadScript read "s.json" = .ok script := loadScript_json hformat rfl hjson
  have hlines : ∀ all trace, lines all trace = Selection.lines
      ⟨false, all, trace⟩ (Settings.run { ticks := 9, step := 1 } script) :=
    fun all trace => congrArg Outcome.lines (execute_run hsettings hscript _)
  have hlength : (lines true false).length = 4 := by
    rw [hlines]
    decide +kernel
  have hquiet : lines false false =
      ["     2  pos (   0.000,    0.000)  vel (  0.000,   0.000)  jump"] := by
    rw [hlines]
    decide +kernel
  obtain ⟨last, _, _, _, hticks, _, _, _, htrace⟩ :=
    output_filters_one_trajectory hsettings hscript false
  obtain ⟨hfilter, _, hchronological⟩ := htrace false
  have hlast := congrArg List.length hticks
  rw [List.length_map, List.length_range', hlength] at hlast
  subst hlast
  exact ⟨hsettings, hscript, hticks, hquiet, hfilter, hchronological⟩

end Choreo
