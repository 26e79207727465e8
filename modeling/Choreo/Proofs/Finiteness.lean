import Choreo.Proofs.Leaf.Finiteness
import Choreo.Proofs.Node.Renewal
import Choreo.Proofs.Reporting
import Choreo.Proofs.Writers

/-!
# Finite records

A leaf that a check accepts has finite parameters, and keeps what its check has found from one start to the
next. So what every leaf of a script keeps to from its start to its end, and what it therefore writes, is
proved of the leaves alone and holds of all that a driver ever writes.
-/

namespace Choreo

/-! ### What all leaves keep to -/

/-- A promise about all leaves of a script: what is authored, what holds of a leaf from its start to its
end, and what every write is like as long as the calls are. -/
structure Regime where
  authored : Leaf → Prop
  running : Leaf → Prop
  write : Write → Prop
  scene : Surroundings → Prop
  clock : Moment → Prop
  /-- Not all moments are ruled out. -/
  moment : Moment
  clock_moment : clock moment
  start : ∀ {w a b}, a.init w = .ok b → authored a → ∀ w', scene w' →
    running (b.start w').1 ∧ ∀ x ∈ (b.start w').2, write x
  update : ∀ {a}, running a → ∀ m w, clock m → scene w →
    running (a.update m w).1 ∧ ∀ x ∈ (a.update m w).2, write x
  halt : write (.velocity .zero)

namespace Regime

variable {g : Regime} {m : Moment} {w : Surroundings} {n k : Node}

/-- A node that follows the regime: if it is a leaf, it is one that a check has accepted, at some time of
its run, and while it is live it keeps to what holds of a leaf that runs. -/
structure Rules (g : Regime) (n : Node) : Prop where
  accepted : ∀ h a, n = .leaf h a →
    ∃ w a₀ b, a₀.init w = .ok b ∧ g.authored a₀ ∧ a.SameAction b
  running : ∀ h a, n = .leaf h a → h.live = true → g.running a

theorem Rules.of_sameNode (hn : g.Rules n) (hsame : Node.SameNode k n)
    (hrunning : ∀ h a, k = .leaf h a → h.live = true → g.running a) : g.Rules k := by
  refine ⟨fun h a heq => ?_, hrunning⟩
  rw [heq] at hsame
  cases hsame with
  | leaf header own =>
      obtain ⟨w, a₀, b, hinit, hauthored, hb⟩ := hn.accepted _ _ rfl
      exact ⟨w, a₀, b, hinit, hauthored,
        ⟨own.pristine.trans hb.pristine, fun v => (own.start v).trans (hb.start v)⟩⟩

/-- A turn of a composite leaves no leaf behind. -/
theorem Rules.of_composite (hn : g.Rules n) (hsame : Node.SameNode k n)
    (hkind : n.isComposite = true) : g.Rules k := by
  refine hn.of_sameNode hsame fun h a heq => ?_
  rw [heq] at hsame
  cases hsame
  cases hkind

theorem Rules.start (hn : g.Rules n) (hscene : g.scene w) :
    g.Rules (n.start w).1 ∧ ∀ x ∈ n.startWrites w, g.write x := by
  have hsame := Node.sameNode_start w n
  cases hkind : n.isComposite with
  | true => exact ⟨hn.of_composite hsame hkind, by cases n <;> simp_all [Node.startWrites, Node.isComposite]⟩
  | false =>
      obtain ⟨h, a, rfl⟩ := Node.exists_leaf hkind
      rw [Node.startWrites]
      cases hlive : h.opened.live with
      | false =>
          refine ⟨hn.of_sameNode hsame fun hd b heq hb => ?_, by simp⟩
          have hheader := congrArg (·.header.live) heq
          simp only [Node.start_header] at hheader
          change h.opened.live = hd.live at hheader
          rw [hlive, hb] at hheader
          cases hheader
      | true =>
          obtain ⟨v, a₀, b, hinit, hauthored, hsameAction⟩ := hn.accepted _ _ rfl
          obtain ⟨hrunning, hwrites⟩ := g.start hinit hauthored w hscene
          rw [← hsameAction.start w] at hrunning hwrites
          refine ⟨hn.of_sameNode hsame fun hd c heq _ => ?_, by simpa using hwrites⟩
          rw [Node.start_leaf w h hlive] at heq
          cases heq
          exact hrunning

theorem Rules.update (hn : g.Rules n) (hclock : g.clock m) (hscene : g.scene w) :
    g.Rules (n.update m w).1 ∧ ∀ x ∈ n.updateWrites m w, g.write x := by
  have hsame := Node.sameNode_update m w n
  cases hkind : n.isComposite with
  | true => exact ⟨hn.of_composite hsame hkind, by cases n <;> simp_all [Node.updateWrites, Node.isComposite]⟩
  | false =>
      obtain ⟨h, a, rfl⟩ := Node.exists_leaf hkind
      rw [Node.update_leaf] at hsame ⊢
      rw [Node.updateWrites]
      cases hlive : h.live with
      | false => exact ⟨by simpa [hlive] using hn, by simp⟩
      | true =>
          obtain ⟨hrunning, hwrites⟩ := g.update (hn.running _ _ rfl hlive) m w hclock hscene
          rw [hlive, if_pos rfl] at hsame
          rw [if_pos rfl]
          refine ⟨hn.of_sameNode hsame fun hd c heq _ => ?_, by simpa using hwrites⟩
          cases heq
          exact hrunning

theorem Rules.finish (hn : g.Rules n) (hactive : n.header.active = true) :
    g.Rules n.finish.1 ∧ ∀ x ∈ n.finishWrites, g.write x := by
  refine ⟨hn.of_sameNode (Node.sameNode_finish hactive) fun h a heq hlive => ?_, ?_⟩
  · have hheader := congrArg (·.header.live) heq
    simp only [Node.finish_header hactive] at hheader
    change false = h.live at hheader
    rw [hlive] at hheader
    cases hheader
  · cases n with
    | leaf h a =>
        intro x hx
        have hx : x ∈ a.finish := by
          rw [Node.finishWrites] at hx
          split at hx
          · exact hx
          · cases hx
        rw [Leaf.finish] at hx
        split at hx
        · rw [List.mem_singleton.mp hx]
          exact g.halt
        · cases hx
    | _ => simp [Node.finishWrites]

/-! ### Courses -/

/-- All nodes follow the regime. -/
def RulesAll (g : Regime) (nodes : List Node) : Prop := ∀ n ∈ nodes.flatMap Node.preorder, g.Rules n

theorem RulesAll.course {nodes result : List Node} {effects : List Effect}
    (course : Node.Course m w nodes effects result) (hclock : g.clock m) (hscene : g.scene w)
    (h : g.RulesAll nodes) : g.RulesAll result ∧ ∀ x ∈ Effect.writes effects, g.write x := by
  induction course with
  | done nodes => exact ⟨h, by simp [Effect.writes]⟩
  | start before after hrest _ _ ihBelow ihNext =>
      obtain ⟨hn, hbelow, hothers⟩ := Node.forall_preorder_split.mp h
      obtain ⟨hstarted, hown⟩ := hn.start hscene
      obtain ⟨hbelow, hinner⟩ := ihBelow hbelow
      obtain ⟨hresult, houter⟩ := ihNext (Node.forall_preorder_split.mpr ⟨hstarted, hbelow, hothers⟩)
      refine ⟨hresult, ?_⟩
      rw [Effect.writes_append, Effect.writes_append, Effect.writes_event, Effect.writes_map]
      simp only [List.forall_mem_append]
      exact ⟨⟨hown, hinner⟩, houter⟩
  | update before after hactive _ _ ihBelow ihNext =>
      obtain ⟨hn, hbelow, hothers⟩ := Node.forall_preorder_split.mp h
      obtain ⟨hupdated, hown⟩ := hn.update hclock hscene
      obtain ⟨hbelow, hinner⟩ := ihBelow hbelow
      obtain ⟨hresult, houter⟩ := ihNext (Node.forall_preorder_split.mpr ⟨hupdated, hbelow, hothers⟩)
      refine ⟨hresult, ?_⟩
      rw [Effect.writes_append, Effect.writes_append, Effect.writes_map]
      simp only [List.forall_mem_append]
      exact ⟨⟨hown, hinner⟩, houter⟩
  | finish before after hactive _ _ ihBelow ihNext =>
      obtain ⟨hn, hbelow, hothers⟩ := Node.forall_preorder_split.mp h
      obtain ⟨hended, hown⟩ := hn.finish hactive
      obtain ⟨hbelow, hinner⟩ := ihBelow hbelow
      obtain ⟨hresult, houter⟩ := ihNext (Node.forall_preorder_split.mpr ⟨hended, hbelow, hothers⟩)
      refine ⟨hresult, ?_⟩
      rw [Effect.writes_append, Effect.writes_append, Effect.writes_append, Effect.writes_map,
        Effect.writes_event]
      simp only [List.forall_mem_append]
      exact ⟨⟨⟨hown, hinner⟩, by simp [Effect.writes]⟩, houter⟩

end Regime

/-! ### Scripts -/

namespace Script

open Node

variable {s : Script} {m : Moment} {w : Surroundings} {h : Header} {a : Leaf}

/-- A composite in a flat script hides the leaves below it. -/
theorem mem_members_of_leaf (hk : leaf h a ∈ s.forest.flatMap preorder) : leaf h a ∈ s.members := by
  cases s with
  | tree root => simpa [forest, members] using hk
  | flat actions cursor =>
      obtain ⟨_, hroot, hk⟩ := List.mem_flatMap.mp hk
      obtain ⟨n, hn, rfl⟩ := List.mem_map.mp hroot
      rw [preorder_eq, alone_children, List.flatMap_nil, List.mem_singleton] at hk
      cases n with
      | leaf h₀ a₀ =>
          rw [hk]
          exact hn
      | _ => cases hk

theorem exists_of_mem_initFlatAll {nodes : List Node} {k : Node} {first : Nat}
    (hk : k ∈ (initFlatAll w first nodes).1) : ∃ n ∈ nodes, ∃ i, k = (n.initFlat w i).1 := by
  induction nodes generalizing first with
  | nil => cases hk
  | cons n rest ih =>
      rw [initFlatAll] at hk
      rcases List.mem_cons.mp hk with rfl | hk
      · exact ⟨n, List.mem_cons_self, first, rfl⟩
      · obtain ⟨j, hj, hinit⟩ := ih hk
        exact ⟨j, List.mem_cons_of_mem n hj, hinit⟩

/-- A leaf in a script that a check finds clean is one that the check has accepted. -/
theorem exists_ok_of_clean (hclean : (s.init w).2.isClean = true)
    (hk : leaf h a ∈ (s.init w).1.forest.flatMap preorder) :
    ∃ h₀ a₀, leaf h₀ a₀ ∈ s.members ∧ a₀.init w = .ok a := by
  have hmember := mem_members_of_leaf hk
  have hfault : h.fault = none := by
    have hfaults : (s.init w).2.faults = [] := List.isEmpty_iff.mp hclean
    rw [complaints_members, List.filterMap_eq_nil_iff] at hfaults
    exact Option.map_eq_none_iff.mp (hfaults _ hmember)
  cases s with
  | tree root =>
      obtain ⟨j, hj, i, hinit⟩ := exists_of_mem_init w hmember
      obtain ⟨h₀, a₀, rfl, hok⟩ := ok_of_init w hinit.symm hfault
      exact ⟨h₀, a₀, hj, hok⟩
  | flat actions cursor =>
      obtain ⟨n, hn, i, hinit⟩ := exists_of_mem_initFlatAll hmember
      cases hkind : n.isComposite with
      | false =>
          rw [initFlat, hkind] at hinit
          obtain ⟨h₀, a₀, rfl, hok⟩ := ok_of_init w hinit.symm hfault
          exact ⟨h₀, a₀, hn, hok⟩
      | true =>
          rw [initFlat, hkind] at hinit
          cases n with
          | leaf _ _ => cases hkind
          | _ => cases hinit

end Script

/-! ### Drivers -/

/-- What an activation in `w` may run: a script that is found clean there, and authored as the regime
has it. -/
structure Regime.Admits (g : Regime) (w : Surroundings) (s : Script) : Prop where
  clean : (s.init w).2.isClean = true
  authored : ∀ h a, .leaf h a ∈ s.members → g.authored a

theorem Regime.Admits.rulesAll {g : Regime} {w : Surroundings} {s : Script} (h : g.Admits w s) :
    g.RulesAll (s.init w).1.forest := by
  intro n hn
  have hidle := (s.prepared_init w).not_live n hn
  refine ⟨fun hd a heq => ?_, fun hd a heq hlive => ?_⟩
  · rw [heq] at hn
    obtain ⟨h₀, a₀, hmember, hok⟩ := Script.exists_ok_of_clean h.clean hn
    exact ⟨w, a₀, a, hok, h.authored h₀ a₀ hmember, ⟨rfl, fun _ => rfl⟩⟩
  · rw [heq] at hidle
    exact absurd hlive (Bool.eq_false_iff.mp hidle)

/-- A driver that runs holds a script that follows the regime. -/
def Regime.Governs (g : Regime) (d : Driver) : Prop :=
  d.status = .running → ∃ s, d.script = some s ∧ s.Underway ∧ g.RulesAll s.forest

/-- The beat is one that the regime is about: its surroundings are, the moment of a tick is, and an
activation may run what it finds. -/
structure Regime.Fits (g : Regime) (default : Option Script) (b : Beat) : Prop where
  scene : g.scene b.surroundings
  clock : b.call = .tick → g.clock b.moment
  admits : ∀ override, b.call = .activate override →
    ∀ s, (override <|> default) = some s → g.Admits b.surroundings s

namespace Regime

variable {g : Regime} {d : Driver} {m : Moment} {w : Surroundings}

theorem Governs.stop (h : g.Governs d) (hscene : g.scene w) :
    ∀ x ∈ Effect.writes d.stop.2, g.write x := by
  by_cases hrunning : d.status = .running
  · obtain ⟨s, hscript, hunderway, hrules⟩ := h hrunning
    obtain ⟨hcourse, _⟩ := hunderway.finish (m := g.moment) (w := w)
    rw [Driver.stop_of_running hrunning hscript, Effect.writes_append, Effect.writes_event]
    simpa [Effect.writes] using (hrules.course hcourse g.clock_moment hscene).2
  · rw [Driver.stop_of_not_running hrunning]
    simp [Effect.writes]

theorem Governs.tick (h : g.Governs d) (hclock : g.clock m) (hscene : g.scene w) :
    g.Governs (d.tick m w).1 ∧ ∀ x ∈ Effect.writes (d.tick m w).2, g.write x := by
  by_cases hrunning : d.status = .running
  · obtain ⟨s, hscript, hunderway, hrules⟩ := h hrunning
    cases hstop : s.hasStopped w with
    | true =>
        obtain ⟨hcourse, _⟩ := hunderway.finish (m := m) (w := w)
        rw [Driver.tick_of_hasStopped m w hrunning hscript hstop, Effect.writes_append,
          Effect.writes_event]
        have hwrites := (hrules.course hcourse hclock hscene).2
        refine ⟨fun hstatus => ?_, by simpa [Effect.writes] using hwrites⟩
        cases hactive : w.active <;> simp [hactive] at hstatus
    | false =>
        obtain ⟨hcourse, hunderway⟩ := hunderway.update (m := m) (w := w)
        obtain ⟨hafter, hwrites⟩ := hrules.course hcourse hclock hscene
        rw [Driver.tick_of_not_hasStopped m w hrunning hscript hstop]
        exact ⟨fun _ => ⟨_, rfl, hunderway, hafter⟩, hwrites⟩
  · rw [Driver.tick_of_not_running m w hrunning]
    exact ⟨h, by simp [Effect.writes]⟩

theorem governs_activate (hstatus : d.status ≠ .running) {override : Option Script}
    (hadmits : ∀ s, (override <|> d.default) = some s → g.Admits w s) (hscene : g.scene w) :
    g.Governs (d.activate w override).1.1 ∧
      ∀ x ∈ Effect.writes (d.activate w override).1.2, g.write x := by
  cases hfound : (override <|> d.default) with
  | none =>
      rw [Driver.activate_of_none w hstatus hfound]
      exact ⟨fun hrunning => (by cases hrunning), by simp [Effect.writes]⟩
  | some s =>
      obtain ⟨hcourse, hunderway⟩ := (s.prepared_init w).start (m := g.moment) (w := w)
      obtain ⟨hafter, hwrites⟩ :=
        (hadmits s hfound).rulesAll.course hcourse g.clock_moment hscene
      rw [Driver.activate_of_some w hstatus hfound, Effect.writes_append, Effect.writes_append,
        Effect.writes_events, Effect.writes_event]
      exact ⟨fun _ => ⟨_, rfl, hunderway, hafter⟩, by simpa [Effect.writes] using hwrites⟩

/-- Under a driver that follows the regime, every call writes as the regime has it. -/
theorem Governs.call (h : g.Governs d) {b : Beat} (hb : g.Fits d.default b) :
    g.Governs (d.call b.moment b.surroundings b.call).1 ∧
      ∀ x ∈ Effect.writes (d.call b.moment b.surroundings b.call).2, g.write x := by
  cases hcall : b.call with
  | tick => exact h.tick (hb.clock hcall) hb.scene
  | stop => exact ⟨fun hrunning => absurd hrunning d.stop_status_ne_running, h.stop hb.scene⟩
  | activate override =>
      have hadmits := hb.admits override hcall
      rw [← d.stop_default] at hadmits
      obtain ⟨hafter, hwrites⟩ :=
        governs_activate d.stop_status_ne_running hadmits hb.scene
      rw [Driver.call, Driver.activate_eq, Effect.writes_append]
      exact ⟨hafter, List.forall_mem_append.mpr ⟨h.stop hb.scene, hwrites⟩⟩

theorem governs_run (default : Option Script) (intentions : Intentions) {beats : List Beat}
    (hbeats : ∀ b ∈ beats, g.Fits default b) :
    g.Governs ((Session.fresh default intentions).run beats).driver := by
  induction beats using List.reverseRecOn with
  | nil => exact fun hrunning => by cases hrunning
  | append_singleton beats b ih =>
      have hdefault := (Session.fresh default intentions).run_default beats
      obtain ⟨hbefore, hb⟩ := List.forall_mem_append.mp hbeats
      have hfits := List.forall_mem_singleton.mp hb
      rw [Session.run_concat, Session.beat_driver]
      exact ((ih hbefore).call (hdefault ▸ hfits)).1

/-- Whatever has been done with a driver under the regime, the next call writes as the regime has it. -/
theorem write_of_run (default : Option Script) (intentions : Intentions) {beats : List Beat} {b : Beat}
    (hbeats : ∀ c ∈ beats ++ [b], g.Fits default c) {x : Write} :
    let driver := ((Session.fresh default intentions).run beats).driver
    .write x ∈ (driver.call b.moment b.surroundings b.call).2 → g.write x := by
  intro driver hx
  obtain ⟨hbefore, hb⟩ := List.forall_mem_append.mp hbeats
  have hdefault : driver.default = default := (Session.fresh default intentions).run_default beats
  have hfits : g.Fits driver.default b := hdefault ▸ List.forall_mem_singleton.mp hb
  have hgoverns : g.Governs driver := governs_run default intentions hbefore
  exact (hgoverns.call hfits).2 x (List.mem_filterMap.mpr ⟨_, hx, rfl⟩)

/-! ### Two regimes -/

/-- What is handed on as authored, and headings, are finite whatever else there is. -/
def plain : Regime where
  authored _ := True
  running := Leaf.Plain
  write x := x.isPlain = true → x.isFinite = true
  scene _ := True
  clock _ := True
  moment := ⟨0, 0⟩
  clock_moment := trivial
  start h _ w' _ := by
    obtain ⟨hrunning, hwrites⟩ := Leaf.plain_start h w'
    exact ⟨hrunning, fun x hx _ => hwrites x hx⟩
  update h m w _ _ := h.update m w
  halt := by simp [Write.isPlain]

/-- All is finite if no way is longer than `2 ^ p`, no step shorter than `2 ^ -q`, and the two do not go
beyond the range together. -/
def moderate (p q : ℕ) (hpq : p + q ≤ 116) : Regime where
  authored := Leaf.Moderate p
  running a := a.Regular ∧ a.Plain ∧ a.Bounded p
  write x := x.isFinite = true
  scene w := w.position.Within p ∧ w.scroll.Within p
  clock m := ∀ s, m.step.Amounts s → 0 < s → 1 ≤ s * 2 ^ q
  moment := ⟨0, 0⟩
  clock_moment := by
    intro s hs hpos
    obtain rfl : s = 0 := hs.eq Single.amounts_zero
    exact absurd hpos (lt_irrefl 0)
  start h hmoderate w' hscene := by
    obtain ⟨hplain, hwrites⟩ := Leaf.plain_start h w'
    exact ⟨⟨Leaf.regular_start h w', hplain, Leaf.bounded_start h hmoderate hscene.1 (by omega)⟩,
      hwrites⟩
  update h m w hclock hscene := by
    obtain ⟨hregular, hplain, hbounded⟩ := h
    obtain ⟨hafter, hwrites⟩ :=
      hbounded.update hregular hplain hclock hscene.2 (by omega : q + p ≤ 116)
    exact ⟨⟨(Leaf.goes_update hregular m w).1, (hplain.update m w).1, hafter⟩, hwrites⟩
  halt := Planar.isFinite_zero

end Regime

/-- If the beat activates a script, a check finds it clean. -/
def Beat.Clean (default : Option Script) (b : Beat) : Prop :=
  ∀ override, b.call = .activate override → ∀ s, (override <|> default) = some s →
    (s.init b.surroundings).2.isClean = true

/-- Position, scrolling and all that is authored are within `2 ^ p`, and a step that has a duration has
one of at least `2 ^ -q`. -/
structure Beat.Moderate (default : Option Script) (p q : ℕ) (b : Beat) : Prop where
  position : b.surroundings.position.Within p
  scroll : b.surroundings.scroll.Within p
  step : b.call = .tick → ∀ s, b.moment.step.Amounts s → 0 < s → 1 ≤ s * 2 ^ q
  authored : ∀ override, b.call = .activate override → ∀ s, (override <|> default) = some s →
    ∀ h a, .leaf h a ∈ s.members → a.Moderate p

/-- **Finite records.** While every script that is activated is found clean, whatever the surroundings
and the steps are, no call writes a ground speed, a jump, an aim, a throw or a blow that is not finite.
Velocities and the bullets of a barrage are finite too as long as ways, positions and scrolling are at
most `2 ^ p`, steps at least `2 ^ -q`, and `p + q` at most 116. -/
theorem records_stay_finite (default : Option Script) (intentions : Intentions) {beats : List Beat}
    {b : Beat} (hclean : ∀ c ∈ beats ++ [b], c.Clean default) :
    let driver := ((Session.fresh default intentions).run beats).driver
    ∀ x, .write x ∈ (driver.call b.moment b.surroundings b.call).2 →
      (x.isPlain = true → x.isFinite = true) ∧
      ∀ p q, p + q ≤ 116 → (∀ c ∈ beats ++ [b], c.Moderate default p q) → x.isFinite = true := by
  intro driver x hx
  refine ⟨?_, fun p q hpq hmoderate => ?_⟩
  · have hfits : ∀ c ∈ beats ++ [b], Regime.plain.Fits default c := fun c hc =>
      ⟨trivial, fun _ => trivial, fun override hcall s hs =>
        ⟨hclean c hc override hcall s hs, fun _ _ _ => trivial⟩⟩
    exact Regime.write_of_run default intentions hfits hx
  · have hfits : ∀ c ∈ beats ++ [b], (Regime.moderate p q hpq).Fits default c := fun c hc =>
      have hmoderate := hmoderate c hc
      ⟨⟨hmoderate.position, hmoderate.scroll⟩, hmoderate.step, fun override hcall s hs =>
        ⟨hclean c hc override hcall s hs, hmoderate.authored override hcall s hs⟩⟩
    exact Regime.write_of_run default intentions hfits hx

/-- Two bullets at once. -/
def volley (first last : Single) : Node :=
  .leaf {} (.barrage { angleStart := first, angleEnd := last, bulletCount := 2 })

/-- A stride and two bullets, in surroundings of unit size and with steps of unit length. -/
theorem records_stay_finite_volley :
    let stride : Node := .leaf {} (.moveBy { vector := .right, speed := 1 })
    let script : Script := .tree (.parallel {} [stride, volley (-1) 1] [])
    let go : Beat := ⟨⟨0, 1⟩, {}, id, .activate none⟩
    let tick : Beat := ⟨⟨1, 1⟩, {}, id, .tick⟩
    let driver := ((Session.fresh (some script) .all).run [go]).driver
    let effects := (driver.call tick.moment tick.surroundings tick.call).2
    .write (.velocity .right) ∈ effects ∧ ∀ x, .write x ∈ effects → x.isFinite = true := by
  intro stride script go tick driver effects
  have hclean : ∀ c ∈ [go, tick], c.Clean (some script) := by
    intro c hc override hcall s hs
    simp only [List.mem_cons, List.not_mem_nil, or_false] at hc
    rcases hc with rfl | rfl
    · cases hcall
      cases hs
      decide +kernel
    · cases hcall
  have hone : ∀ s, (1 : Single).Amounts s → 0 < s → 1 ≤ s * 2 ^ 0 := by
    intro s hs _
    rw [hs.eq Single.amounts_one]
    norm_num
  have hmoderate : ∀ c ∈ [go, tick], c.Moderate (some script) 1 0 := by
    intro c hc
    have hscene : (Planar.zero).Within 1 := Planar.within_zero 1
    simp only [List.mem_cons, List.not_mem_nil, or_false] at hc
    rcases hc with rfl | rfl
    · refine ⟨hscene, hscene, fun hcall => (by cases hcall), fun override hcall s hs h a hleaf => ?_⟩
      cases hcall
      cases hs
      have hleaves : Node.leaf h a = stride ∨ Node.leaf h a = volley (-1) 1 := by
        simpa [script, Script.members, Node.preorder, Node.preorderAll, stride, volley] using hleaf
      rcases hleaves with heq | heq
      · obtain ⟨-, rfl⟩ := Node.leaf.inj heq
        exact Planar.within_right.mono (by norm_num)
      · obtain ⟨-, rfl⟩ := Node.leaf.inj heq
        have hone : (1 : Single).Within 125 := Single.amounts_one.means.within (by norm_num)
        exact ⟨hone.neg, hone⟩
    · exact ⟨hscene, hscene, fun _ => hone, fun _ hcall => (by cases hcall)⟩
  have hbeats : ∀ c ∈ [go] ++ [tick], c.Clean (some script) := hclean
  have hfinite := records_stay_finite (some script) .all hbeats
  exact ⟨by decide +kernel, fun x hx => (hfinite x hx).2 1 0 (by norm_num) hmoderate⟩

/-- The angles of a barrage are each finite but too far apart: their difference is not, and so neither is
the heading of any bullet. -/
theorem wide_volley_not_finite :
    let wide : Script := .tree (volley (-3e38) 3e38)
    let go : Beat := ⟨⟨0, 1⟩, {}, id, .activate none⟩
    let driver := ((Session.fresh (some wide) .all).run [go]).driver
    (∀ c ∈ [go], c.Clean (some wide)) ∧ (1 : Single).isPositiveFinite = true ∧
      ∃ x, .write x ∈ (driver.call ⟨1, 1⟩ {} .tick).2 ∧ x.isFinite = false := by
  intro wide go driver
  refine ⟨?_, by decide +kernel, ?_⟩
  · intro c hc override hcall s hs
    obtain rfl := List.mem_singleton.mp hc
    cases hcall
    cases hs
    decide +kernel
  · have hwritten : (Effect.writes (driver.call ⟨1, 1⟩ {} .tick).2).any (!·.isFinite) = true := by
      decide +kernel
    obtain ⟨x, hx, hinfinite⟩ := List.any_eq_true.mp hwritten
    obtain ⟨e, he, hwrite⟩ := List.mem_filterMap.mp hx
    cases e with
    | event happening => cases hwrite
    | write y =>
        cases hwrite
        exact ⟨x, he, by simpa using hinfinite⟩

end Choreo
