import Choreo.Proofs.Script.Forest
import Choreo.Proofs.Session

/-!
# The discipline of a session

Every successful activation opens a chapter: the script with its numbers, and everything that happens
from then on until the next call to activate, which still belongs to the chapter as far as it stops
the script that runs. A chronicle tells a session chapter by chapter. In each chapter the windows of
the nodes are proper and nested, and the last event of a script that no longer runs is the one that
says how it came to an end.
-/

namespace Choreo

/-- What one successful activation brings about. -/
structure Chapter where
  script : Script
  trace : List Happening

/-- A driver and the chapters of its session, the latest first. -/
structure Chronicle where
  driver : Driver
  chapters : List Chapter

namespace Chronicle

def fresh (default : Option Script) : Chronicle :=
  { driver := { default := default }, chapters := [] }

def extend (chapters : List Chapter) (trace : List Happening) : List Chapter :=
  match chapters with
  | [] => []
  | latest :: past => { latest with trace := latest.trace ++ trace } :: past

/-- Stops the driver. The events belong to the latest chapter. -/
def close (c : Chronicle) : Chronicle :=
  let (driver, effects) := c.driver.stop
  ⟨driver, extend c.chapters (Effect.happenings effects)⟩

/-- Activates a driver that does not run. If a script is found, a chapter begins. -/
def begin (w : Surroundings) (override : Option Script) (c : Chronicle) : Chronicle :=
  let (driver, effects) := (c.driver.activate w override).1
  match driver.script with
  | none => ⟨driver, c.chapters⟩
  | some script => ⟨driver, ⟨script, Effect.happenings effects⟩ :: c.chapters⟩

def beat (c : Chronicle) (b : Beat) : Chronicle :=
  match b.call with
  | .activate override => c.close.begin b.surroundings override
  | .tick =>
      let (driver, effects) := c.driver.tick b.moment b.surroundings
      ⟨driver, extend c.chapters (Effect.happenings effects)⟩
  | .stop => c.close

def run (c : Chronicle) (beats : List Beat) : Chronicle := beats.foldl beat c

def happenings (c : Chronicle) : List Happening := c.chapters.reverse.flatMap (·.trace)

end Chronicle

/-- How the trace of the latest chapter ends for a driver of the given status. -/
def Status.Concludes : Status → List Happening → Prop
  | .running, trace => Unclosed trace
  | .finished, trace => ClosedBy .finished trace
  | .stopped, trace => ClosedBy .stopped trace
  | .idle, trace => ClosedBy .finished trace ∨ ClosedBy .stopped trace

/-- What the events of a session are owed to look like. -/
structure Chronicle.Disciplined (c : Chronicle) : Prop where
  alternates : ∀ chapter ∈ c.chapters, ∀ id, Alternates id chapter.trace
  /-- A node that starts is the root of a tree or has a parent. -/
  placed : ∀ chapter ∈ c.chapters, ∀ id, .started id ∈ chapter.trace →
    (∃ root ∈ chapter.script.forest, root.id = id) ∨ ∃ parent, (parent, id) ∈ chapter.script.edges
  /-- A node starts inside a window of its parent. -/
  starts_inside : ∀ chapter ∈ c.chapters, ∀ parent id before after,
    (parent, id) ∈ chapter.script.edges → chapter.trace = before ++ .started id :: after →
    Open parent before
  /-- No window of a node is open when its parent ends. -/
  ends_inside : ∀ chapter ∈ c.chapters, ∀ parent id before after,
    (parent, id) ∈ chapter.script.edges → chapter.trace = before ++ .ended parent :: after →
    ¬ Open id before
  past : ∀ chapter ∈ c.chapters.tail,
    ClosedBy .finished chapter.trace ∨ ClosedBy .stopped chapter.trace
  latest : ∀ chapter ∈ c.chapters.head?, c.driver.status.Concludes chapter.trace
  unused : c.chapters = [] → c.driver.status = .idle

/-! ### The invariant -/

namespace Chronicle

/-- The events of a chapter lead from nothing open to the given open nodes. -/
structure Proper (chapter : Chapter) (final : Set Nat) : Prop where
  nodup : chapter.script.ids.Nodup
  unfolds : Unfolds {i | i ∈ chapter.script.ids} (Nested chapter.script.edges) ∅ chapter.trace final

structure Complete (chapter : Chapter) : Prop where
  proper : Proper chapter ∅
  closed : ClosedBy .finished chapter.trace ∨ ClosedBy .stopped chapter.trace

/-- The running script and the latest chapter agree on what is open. -/
structure Telling (script : Script) (chapter : Chapter) : Prop where
  underway : script.Underway
  ids : script.ids = chapter.script.ids
  edges : script.edges = chapter.script.edges
  proper : Proper chapter (Node.opened script.forest)
  unclosed : Unclosed chapter.trace

inductive Kept : Chronicle → Prop
  | unused {d : Driver} (hstatus : d.status = .idle) : Kept ⟨d, []⟩
  | running {d : Driver} {script : Script} {latest : Chapter} {past : List Chapter}
      (hstatus : d.status = .running) (hscript : d.script = some script)
      (htelling : Telling script latest) (hpast : ∀ chapter ∈ past, Complete chapter) :
      Kept ⟨d, latest :: past⟩
  | closed {d : Driver} {latest : Chapter} {past : List Chapter}
      (hstatus : d.status ≠ .running) (hproper : Proper latest ∅)
      (hconcludes : d.status.Concludes latest.trace)
      (hpast : ∀ chapter ∈ past, Complete chapter) : Kept ⟨d, latest :: past⟩

variable {m : Moment} {w : Surroundings} {script next : Script} {latest : Chapter}

theorem Proper.append {final after : Set Nat} {more : List Happening} (h : Proper latest final)
    (hmore : Unfolds {i | i ∈ latest.script.ids} (Nested latest.script.edges) final more after) :
    Proper ⟨latest.script, latest.trace ++ more⟩ after :=
  ⟨h.nodup, h.unfolds.append hmore⟩

theorem Telling.course {effects : List Effect} (h : Telling script latest)
    (hcourse : Node.Course m w script.forest effects next.forest) :
    next.ids = latest.script.ids ∧ next.edges = latest.script.edges ∧
      Proper ⟨latest.script, latest.trace ++ Effect.happenings effects⟩
        (Node.opened next.forest) ∧
      Unclosed (latest.trace ++ Effect.happenings effects) := by
  have hids : next.ids = script.ids := by
    rw [Script.ids, Script.ids, List.flatMap_def, List.flatMap_def, hcourse.map_ids_eq]
  have hedges : next.edges = script.edges := by
    rw [Script.edges, Script.edges, List.flatMap_def, List.flatMap_def, hcourse.map_edges_eq]
  have hnodup : script.ids.Nodup := by
    rw [h.ids]
    exact h.proper.nodup
  have hunfolds := hcourse.unfolds h.underway.sound hnodup
  change Unfolds {i | i ∈ script.ids} (Nested script.edges) _ _ _ at hunfolds
  rw [h.ids, h.edges] at hunfolds
  exact ⟨hids.trans h.ids, hedges.trans h.edges, h.proper.append hunfolds,
    h.unclosed.append hcourse.unclosed⟩

theorem Telling.finish (h : Telling script latest) (closing : Happening)
    (haside : ∀ id, closing ≠ .started id ∧ closing ≠ .ended id) :
    Proper ⟨latest.script,
        latest.trace ++ Effect.happenings (script.finish.2 ++ [.event closing])⟩ ∅ ∧
      ClosedBy closing (latest.trace ++ Effect.happenings (script.finish.2 ++ [.event closing])) := by
  -- The moment and the surroundings play no part in an end.
  obtain ⟨hcourse, hnone⟩ := h.underway.finish (m := ⟨0, 0⟩) (w := {})
  obtain ⟨_, _, hproper, hunclosed⟩ := h.course hcourse
  rw [hnone] at hproper
  have htrace : latest.trace ++ Effect.happenings (script.finish.2 ++ [.event closing]) =
      (latest.trace ++ Effect.happenings script.finish.2) ++ [closing] := by
    rw [Node.happenings_append, ← List.append_assoc]
    rfl
  rw [htrace]
  refine ⟨hproper.append (.aside haside (.nil ∅)), _, rfl, ?_, hunclosed⟩
  exact hproper.unfolds.allClosed

theorem happenings_extend (d : Driver) (latest : Chapter) (past : List Chapter)
    (trace : List Happening) :
    happenings ⟨d, extend (latest :: past) trace⟩ = happenings ⟨d, latest :: past⟩ ++ trace := by
  simp [extend, happenings]

theorem kept_close {c : Chronicle} (h : c.Kept) :
    c.close.Kept ∧ c.close.driver.status ≠ .running ∧
      c.close.happenings = c.happenings ++ Effect.happenings c.driver.stop.2 := by
  refine ⟨?_, c.driver.stop_status_ne_running, ?_⟩
  · cases h with
    | unused hstatus =>
        rw [close, Driver.stop_of_not_running (by simp [hstatus])]
        exact .unused hstatus
    | closed hstatus hproper hconcludes hpast =>
        rw [close, Driver.stop_of_not_running hstatus]
        simp only [extend, Effect.happenings, List.filterMap_nil, List.append_nil]
        exact .closed hstatus hproper hconcludes hpast
    | running hstatus hscript htelling hpast =>
        obtain ⟨hproper, hclosed⟩ := htelling.finish .stopped (by simp)
        rw [close, Driver.stop_of_running hstatus hscript]
        exact .closed (by simp) hproper hclosed hpast
  · cases h with
    | unused hstatus =>
        rw [close, Driver.stop_of_not_running (by simp [hstatus])]
        rfl
    | _ => exact happenings_extend _ _ _ _

theorem kept_tick {c : Chronicle} (h : c.Kept) :
    Kept ⟨(c.driver.tick m w).1, extend c.chapters (Effect.happenings (c.driver.tick m w).2)⟩ ∧
      happenings ⟨(c.driver.tick m w).1,
          extend c.chapters (Effect.happenings (c.driver.tick m w).2)⟩ =
        c.happenings ++ Effect.happenings (c.driver.tick m w).2 := by
  refine ⟨?_, ?_⟩
  · cases h with
    | unused hstatus =>
        rw [Driver.tick_of_not_running m w (by simp [hstatus])]
        exact .unused hstatus
    | closed hstatus hproper hconcludes hpast =>
        rw [Driver.tick_of_not_running m w hstatus]
        simp only [extend, Effect.happenings, List.filterMap_nil, List.append_nil]
        exact .closed hstatus hproper hconcludes hpast
    | @running d script latest past hstatus hscript htelling hpast =>
        cases hstop : script.hasStopped w with
        | true =>
            rw [Driver.tick_of_hasStopped m w hstatus hscript hstop]
            cases w.active with
            | true =>
                obtain ⟨hproper, hclosed⟩ := htelling.finish .finished (by simp)
                exact .closed (by simp) hproper hclosed hpast
            | false =>
                obtain ⟨hproper, hclosed⟩ := htelling.finish .stopped (by simp)
                exact .closed (by simp) hproper hclosed hpast
        | false =>
            obtain ⟨hcourse, hunderway⟩ := htelling.underway.update (m := m) (w := w)
            obtain ⟨hids, hedges, hproper, hunclosed⟩ := htelling.course hcourse
            rw [Driver.tick_of_not_hasStopped m w hstatus hscript hstop]
            exact .running hstatus rfl ⟨hunderway, hids, hedges, hproper, hunclosed⟩ hpast
  · cases h with
    | unused hstatus =>
        rw [Driver.tick_of_not_running m w (by simp [hstatus])]
        rfl
    | _ => exact happenings_extend _ _ _ _

theorem telling_activate (script : Script) (w : Surroundings) :
    Telling ((script.init w).1.start w).1 ⟨((script.init w).1.start w).1,
      Effect.happenings ((script.init w).2.happenings.map .event ++ ((script.init w).1.start w).2 ++
        [.event .activated])⟩ := by
  have hprepared := script.prepared_init w
  obtain ⟨hcourse, hunderway⟩ := hprepared.start (m := ⟨0, 0⟩) (w := w)
  have hids : ((script.init w).1.start w).1.ids = (script.init w).1.ids := by
    rw [Script.ids, Script.ids, List.flatMap_def, List.flatMap_def, hcourse.map_ids_eq]
  have hedges : ((script.init w).1.start w).1.edges = (script.init w).1.edges := by
    rw [Script.edges, Script.edges, List.flatMap_def, List.flatMap_def, hcourse.map_edges_eq]
  have hunfolds := hcourse.unfolds hprepared.sound hprepared.nodup
  rw [Node.opened_of_rest hprepared.sound hprepared.rest] at hunfolds
  rw [Node.happenings_append, Node.happenings_append, Node.happenings_events]
  refine ⟨hunderway, rfl, rfl, ⟨?_, ?_⟩, ?_⟩
  · change ((script.init w).1.start w).1.ids.Nodup
    rw [hids]
    exact hprepared.nodup
  · change Unfolds {i | i ∈ ((script.init w).1.start w).1.ids}
      (Nested ((script.init w).1.start w).1.edges) _ _ _
    rw [hids, hedges]
    refine (Unfolds.append (.asides ?_) hunfolds).append (.aside (by simp) (.nil _))
    intro h hh id
    obtain ⟨fault, _, rfl⟩ := List.mem_map.mp hh
    simp
  · have hfaults : Unclosed (script.init w).2.happenings := by simp [Unclosed, Report.happenings]
    have hactivated : Unclosed (Effect.happenings [.event .activated]) := by
      simp [Unclosed, Effect.happenings, Effect.happening?]
    exact (hfaults.append hcourse.unclosed).append hactivated

theorem Kept.past {c : Chronicle} (h : c.Kept) (hstatus : c.driver.status ≠ .running) :
    ∀ chapter ∈ c.chapters, Complete chapter := by
  cases h with
  | unused _ => simp
  | running hrunning _ _ _ => exact absurd hrunning hstatus
  | @closed d latest past _ hproper hconcludes hpast =>
      intro chapter hchapter
      rcases List.mem_cons.mp hchapter with rfl | hchapter
      · refine ⟨hproper, ?_⟩
        cases hd : d.status <;> rw [hd] at hconcludes
        · exact hconcludes
        · exact absurd hd hstatus
        · exact Or.inl hconcludes
        · exact Or.inr hconcludes
      · exact hpast chapter hchapter

theorem kept_begin {c : Chronicle} (h : c.Kept) (hstatus : c.driver.status ≠ .running)
    (override : Option Script) :
    (c.begin w override).Kept ∧
      (c.begin w override).driver = (c.driver.activate w override).1.1 ∧
      (c.begin w override).happenings =
        c.happenings ++ Effect.happenings (c.driver.activate w override).1.2 := by
  cases hfound : (override <|> c.driver.default) with
  | none =>
      rw [begin, Driver.activate_of_none w hstatus hfound]
      refine ⟨?_, rfl, by simp [happenings, Effect.happenings]⟩
      have hcomplete := h.past hstatus
      obtain ⟨d, chapters⟩ := c
      cases chapters with
      | nil => exact .unused rfl
      | cons latest past =>
          obtain ⟨hproper, hclosed⟩ := hcomplete latest (by simp)
          exact .closed (by simp) hproper hclosed fun chapter hc => hcomplete chapter (by simp [hc])
  | some script =>
      rw [begin, Driver.activate_of_some w hstatus hfound]
      refine ⟨.running rfl rfl (telling_activate script w) (h.past hstatus), rfl, ?_⟩
      simp [happenings]

theorem kept_beat {c : Chronicle} (h : c.Kept) (b : Beat) :
    (c.beat b).Kept ∧
      (c.beat b).driver = (c.driver.call b.moment b.surroundings b.call).1 ∧
      (c.beat b).happenings = c.happenings ++
        Effect.happenings (c.driver.call b.moment b.surroundings b.call).2 := by
  obtain ⟨hclose, hstatus, hclosing⟩ := kept_close h
  rw [beat]
  cases hcall : b.call with
  | activate override =>
      obtain ⟨hbegin, hdriver, hopening⟩ :=
        kept_begin (w := b.surroundings) hclose hstatus override
      have hactivate := Driver.activate_eq b.surroundings override c.driver
      refine ⟨hbegin, ?_, ?_⟩
      · rw [hdriver, Driver.call, hactivate]
        rfl
      · rw [hopening, hclosing, Driver.call, hactivate, Node.happenings_append, List.append_assoc]
        rfl
  | tick =>
      obtain ⟨htick, hevents⟩ := kept_tick (m := b.moment) (w := b.surroundings) h
      exact ⟨htick, rfl, hevents⟩
  | stop => exact ⟨hclose, rfl, hclosing⟩

/-! ### What the invariant says -/

theorem edges_ne {script : Script} (hids : script.ids.Nodup) {parent id : Nat}
    (hedge : (parent, id) ∈ script.edges) : parent ≠ id := by
  obtain ⟨n, hn, hedge⟩ := List.mem_flatMap.mp hedge
  exact Node.edges_irreflexive ((List.nodup_flatMap.mp hids).1 n hn) hedge

theorem Proper.placed {final : Set Nat} (h : Proper latest final) {id : Nat}
    (hid : .started id ∈ latest.trace) :
    (∃ root ∈ latest.script.forest, root.id = id) ∨
      ∃ parent, (parent, id) ∈ latest.script.edges := by
  have hrange : id ∈ latest.script.ids := h.unfolds.mem_range_of_started hid
  obtain ⟨root, hroot, hmem⟩ := List.mem_flatMap.mp hrange
  rcases Node.eq_id_or_mem_edges hmem with rfl | ⟨parent, hparent⟩
  · exact Or.inl ⟨root, hroot, rfl⟩
  · exact Or.inr ⟨parent, List.mem_flatMap.mpr ⟨root, hroot, hparent⟩⟩

theorem Kept.proper {c : Chronicle} (h : c.Kept) :
    ∀ chapter ∈ c.chapters, ∃ final, Proper chapter final := by
  intro chapter hchapter
  cases h with
  | unused _ => simp at hchapter
  | running _ _ htelling hpast =>
      rcases List.mem_cons.mp hchapter with rfl | hchapter
      · exact ⟨_, htelling.proper⟩
      · exact ⟨∅, (hpast chapter hchapter).proper⟩
  | closed _ hproper _ hpast =>
      rcases List.mem_cons.mp hchapter with rfl | hchapter
      · exact ⟨∅, hproper⟩
      · exact ⟨∅, (hpast chapter hchapter).proper⟩

theorem Kept.disciplined {c : Chronicle} (h : c.Kept) : c.Disciplined where
  alternates chapter hchapter id := by
    obtain ⟨final, hproper⟩ := h.proper chapter hchapter
    exact hproper.unfolds.alternates id
  placed chapter hchapter id hid := by
    obtain ⟨final, hproper⟩ := h.proper chapter hchapter
    exact hproper.placed hid
  starts_inside chapter hchapter parent id before after hedge htrace := by
    obtain ⟨final, hproper⟩ := h.proper chapter hchapter
    have hunfolds := hproper.unfolds
    rw [htrace] at hunfolds
    exact hunfolds.open_of_started hedge (edges_ne hproper.nodup hedge)
  ends_inside chapter hchapter parent id before after hedge htrace := by
    obtain ⟨final, hproper⟩ := h.proper chapter hchapter
    have hunfolds := hproper.unfolds
    rw [htrace] at hunfolds
    exact hunfolds.not_open_of_ended hedge (edges_ne hproper.nodup hedge)
  past chapter hchapter := by
    cases h with
    | unused _ => simp at hchapter
    | running _ _ _ hpast => exact (hpast chapter hchapter).closed
    | closed _ _ _ hpast => exact (hpast chapter hchapter).closed
  latest chapter hchapter := by
    cases h with
    | unused _ => simp at hchapter
    | running hstatus _ htelling _ =>
        obtain rfl : _ = chapter := by simpa using hchapter
        rw [hstatus]
        exact htelling.unclosed
    | closed _ _ hconcludes _ =>
        obtain rfl : _ = chapter := by simpa using hchapter
        exact hconcludes
  unused hnone := by
    cases h with
    | unused hstatus => exact hstatus
    | _ => simp at hnone

end Chronicle

/-! ### Whole sessions -/

/-- The driver stays as it is, and nothing happens, for as long as there is no call to activate. -/
def Session.Quiet (s : Session) : Prop :=
  ∀ beats : List Beat, (∀ b ∈ beats, b.call = .tick ∨ b.call = .stop) →
    s.run beats =
      { s with intentions := beats.foldl (fun i b => b.meanwhile i) s.intentions }

theorem Session.quiet_of_not_running {s : Session} (hstatus : s.driver.status ≠ .running) :
    s.Quiet := by
  intro beats hbeats
  induction beats generalizing s with
  | nil => rfl
  | cons b rest ih =>
      have hcall : s.driver.call b.moment b.surroundings b.call = (s.driver, []) := by
        rcases hbeats b (by simp) with hcall | hcall <;> rw [hcall, Driver.call]
        · exact Driver.tick_of_not_running _ _ hstatus
        · exact Driver.stop_of_not_running hstatus
      have hbeat : s.beat b = { s with intentions := b.meanwhile s.intentions } := by
        rw [beat, hcall]
        simp [Effect.writes, Write.applyAll, Entity.events, Effect.happenings]
      have hrest := ih (s := s.beat b) (by rwa [hbeat]) fun k hk => hbeats k (by simp [hk])
      change (s.beat b).run rest = _
      rw [hrest, hbeat]
      rfl

/-- A chronicle tells the session whose driver it has, event by event. -/
structure Chronicle.Tells (c : Chronicle) (s : Session) : Prop where
  driver : c.driver = s.driver
  trace : c.happenings.map (fun h => (h.tag, h.node)) = s.trace.map fun e => (e.tag, e.node)

theorem Chronicle.tells_beat {c : Chronicle} {s : Session} (hkept : c.Kept) (htells : c.Tells s)
    (b : Beat) : (c.beat b).Kept ∧ (c.beat b).Tells (s.beat b) := by
  obtain ⟨hbeat, hdriver, hhappenings⟩ := kept_beat hkept b
  refine ⟨hbeat, ?_, ?_⟩
  · rw [hdriver, htells.driver]
    rfl
  · rw [hhappenings, List.map_append, htells.trace, htells.driver, Session.beat, List.map_append,
      Entity.events, List.map_map]
    rfl

theorem Chronicle.tells_run {c : Chronicle} {s : Session} (hkept : c.Kept) (htells : c.Tells s)
    (beats : List Beat) : (c.run beats).Kept ∧ (c.run beats).Tells (s.run beats) := by
  induction beats generalizing c s with
  | nil => exact ⟨hkept, htells⟩
  | cons b rest ih =>
      obtain ⟨hbeat, htellsBeat⟩ := tells_beat hkept htells b
      exact ih hbeat htellsBeat

/-- While a driver runs, its script is underway and its nodes have numbers of their own. -/
theorem Session.underway_of_running {default : Option Script} {intentions : Intentions}
    {beats : List Beat}
    (hrunning : ((Session.fresh default intentions).run beats).driver.status = .running) :
    ∃ script, ((Session.fresh default intentions).run beats).driver.script = some script ∧
      script.Underway ∧ script.ids.Nodup := by
  obtain ⟨hkept, htells⟩ := Chronicle.tells_run (c := .fresh default)
    (s := .fresh default intentions) (.unused rfl) ⟨rfl, rfl⟩ beats
  rw [← htells.driver] at hrunning ⊢
  generalize (Chronicle.fresh default).run beats = chronicle at hkept hrunning ⊢
  cases hkept with
  | unused hstatus =>
      rw [hstatus] at hrunning
      contradiction
  | closed hstatus _ _ _ => exact absurd hrunning hstatus
  | @running d script latest past _ hscript htelling _ =>
      refine ⟨script, hscript, htelling.underway, ?_⟩
      rw [htelling.ids]
      exact htelling.proper.nodup

/-- **Lifecycle discipline.** Whatever calls are made on a driver, and whatever its entity is like at
each of them, the starts and ends of the nodes are paired and nested in every activation, each
activation is closed once and after all its nodes, and nothing follows until the next one. -/
theorem lifecycle_discipline (default : Option Script) (intentions : Intentions)
    (beats : List Beat) :
    let session := (Session.fresh default intentions).run beats
    let chronicle := (Chronicle.fresh default).run beats
    chronicle.Tells session ∧ chronicle.Disciplined ∧
      (session.driver.status ≠ .running → session.Quiet) := by
  obtain ⟨hkept, htells⟩ := Chronicle.tells_run (c := .fresh default)
    (s := .fresh default intentions) (.unused rfl) ⟨rfl, rfl⟩ beats
  exact ⟨htells, hkept.disciplined, Session.quiet_of_not_running⟩

/-- An attack and then a wait, activated anew in mid-run: the first chapter is closed from the inside out
before the second begins, which runs to its end and is followed by nothing. -/
example :
    let script : Script :=
      .tree (.sequence {} [.leaf {} (.attack {}), .leaf {} (.wait { duration := 1 })] (.ready 0))
    let beat (call : Driver.Call) : Beat := ⟨⟨0, 1⟩, {}, id, call⟩
    let chronicle := (Chronicle.fresh (some script)).run
      [beat (.activate none), beat .tick, beat (.activate none), beat .tick, beat .tick, beat .tick,
        beat .tick, beat .stop]
    chronicle.driver.status = .finished ∧ chronicle.chapters.reverse.map (·.trace) =
      [[.started 0, .activated, .started 1, .ended 1, .ended 0, .stopped],
        [.started 0, .activated, .started 1, .ended 1, .started 2, .ended 2, .ended 0,
          .finished]] := by
  decide +kernel

end Choreo
