import Choreo.Proofs.Node.PrunedInit
import Choreo.Proofs.Requests
import Choreo.Run.Trajectory

/-!
# Delivery

What is asked for once stands in fields that the next request overwrites, and it is done when the
entity next carries its intentions out. Nothing is lost or done twice all the same: a flat script
updates one action in a tick, and the entity clears its intentions in every tick. What the actions
from the cursor on still have to ask for is a debt to each of them, and a tick pays into the first
debt that is left.
-/

namespace Choreo

/-! ### Debts -/

/-- Some requests are made: they are the next of the first debt that is not yet paid. -/
inductive Pays : List (List Request) → List Request → List (List Request) → Prop
  | nothing : Pays [] [] []
  | part (made rest : List Request) (debts : List (List Request)) :
      Pays ((made ++ rest) :: debts) made (rest :: debts)
  | paid {debts debts' : List (List Request)} {made : List Request}
      (next : Pays debts made debts') : Pays ([] :: debts) made debts'

/-- Batches of requests pay some debts in full, and no batch pays into two of them: the batches that
are not empty fall into groups, one for each debt. -/
def Settles (batches debts : List (List Request)) : Prop :=
  ∃ groups : List (List (List Request)),
    groups.flatten = batches.filter (!·.isEmpty) ∧ groups.map List.flatten = debts

theorem Settles.flatten_eq {batches debts : List (List Request)} (h : Settles batches debts) :
    batches.flatten = debts.flatten := by
  obtain ⟨groups, hgroups, rfl⟩ := h
  rw [← List.flatten_filter_not_isEmpty, ← hgroups, List.flatten_flatten]

theorem Pays.settles {debts debts' batches : List (List Request)} {made : List Request}
    (h : Pays debts made debts') (hrest : Settles batches debts') :
    Settles (made :: batches) debts := by
  induction h with
  | nothing =>
      obtain ⟨groups, hgroups, hdebts⟩ := hrest
      exact ⟨groups, by simpa using hgroups, hdebts⟩
  | part made rest debts =>
      obtain ⟨groups, hgroups, hdebts⟩ := hrest
      obtain ⟨first, later, rfl, rfl, rfl⟩ := List.map_eq_cons_iff.mp hdebts
      cases made with
      | nil => exact ⟨first :: later, by simpa using hgroups, rfl⟩
      | cons r made =>
          refine ⟨((r :: made) :: first) :: later, ?_, rfl⟩
          simpa using hgroups
  | paid next ih =>
      obtain ⟨groups, hgroups, hdebts⟩ := ih hrest
      exact ⟨[] :: groups, hgroups, by simpa using hdebts⟩

namespace Node

/-- What an action of a flat script asks for. A composite is turned away. -/
def requests : Node → List Request
  | leaf _ a => a.requests
  | _ => []

def pending : Node → List Request
  | leaf _ a => a.pending
  | _ => []

end Node

/-- What the actions from the cursor on have not asked for yet, action by action. -/
def Cursor.debts : Cursor → List Node → List (List Request)
  | ready next, nodes => ((nodes.drop next).filter (·.header.able)).map Node.requests
  | running index, nodes =>
    (((nodes.drop index).take 1).filter (·.header.live)).map Node.pending ++
      ((nodes.drop (index + 1)).filter (·.header.able)).map Node.requests
  | finished _, _ => []

namespace Cursor

theorem debts_shift (cursor : Cursor) (n : Node) (rest : List Node) :
    cursor.shift.debts (n :: rest) = cursor.debts rest := by
  cases cursor <;> rfl

theorem debts_nil (cursor : Cursor) : cursor.debts [] = [] := by
  cases cursor <;> simp [debts]

theorem debts_ready (n : Node) (rest : List Node) :
    (ready 0).debts (n :: rest) =
      (if n.header.able then [n.requests] else []) ++ (ready 0).debts rest := by
  cases hable : n.header.able <;> simp [debts, hable]

theorem debts_running (n : Node) (rest : List Node) :
    (running 0).debts (n :: rest) =
      (if n.header.live then [n.pending] else []) ++ (ready 0).debts rest := by
  cases hlive : n.header.live <;> simp [debts, hlive]

end Cursor

/-! ### Actions -/

namespace Node

/-- A flat script can run the node: an action that the entity can do, or else a node that it leaves
out. -/
inductive Fit (has : Capability → Bool) : Node → Prop
  | action {h : Header} {a : Leaf} (hlive : h.live = true → h.able = true)
      (ha : a.Deliverable has) : Fit has (leaf h a)
  | out {n : Node} (hable : n.header.able = false) (hlive : n.header.live = false) : Fit has n

namespace Fit

variable {has : Capability → Bool} {n : Node} (m : Moment) (w : Surroundings)

theorem start (hfit : n.Fit has) : (n.start w).1.Fit has := by
  cases hfit with
  | @action h a hlive ha =>
      rw [Node.start]
      split
      · exact .action (fun hable => hable) (ha.start w)
      · exact .action (fun hable => hable) ha
  | out hable hlive =>
      have hopened := n.start_header w
      exact .out (by rw [hopened]; exact hable) (by rw [hopened]; exact hable)

theorem finish (hfit : n.Fit has) : n.finish.1.Fit has := by
  cases hactive : n.header.active with
  | false => rwa [finish_of_not_active hactive]
  | true =>
      have hclosed := finish_header hactive
      cases hfit with
      | @action h a hlive ha =>
          rw [Node.finish]
          split
          · exact .action hlive ha
          · exact .action (fun hcontra => by cases hcontra) ha
      | out hable hlive => exact .out (by rw [hclosed]; exact hable) (by rw [hclosed]; rfl)

theorem update (hfit : n.Fit has) : (n.update m w).1.Fit has := by
  cases hfit with
  | @action h a hlive ha =>
      rw [update_leaf]
      split
      · exact .action hlive (ha.update w m)
      · exact .action hlive ha
  | out hable hlive =>
      rw [update_of_not_live m w hlive]
      exact .out hable hlive

theorem start_quiet (hfit : n.Fit has) :
    ∀ x ∈ Effect.writes (n.start w).2, x.isQuiet = true := by
  cases hfit with
  | @action h a hlive ha =>
      rw [Node.start]
      split
      · simpa using a.start_quiet w
      · simp [Effect.writes, Effect.write?]
  | out hable hlive =>
      rw [start_of_not_live w hable]
      simp [Effect.writes, Effect.write?]

theorem finish_quiet (hfit : n.Fit has) :
    ∀ x ∈ Effect.writes n.finish.2, x.isQuiet = true := by
  cases hactive : n.header.active with
  | false =>
      rw [finish_of_not_active hactive]
      simp [Effect.writes]
  | true =>
    cases hlive : n.header.live with
    | false =>
        rw [finish_of_not_live hactive hlive]
        simp [Effect.writes, Effect.write?]
    | true =>
      cases hfit with
      | @action h a _ ha =>
          rw [finish_leaf h hactive hlive, Effect.writes_append, Effect.writes_map]
          simpa [Effect.writes, Effect.write?] using a.finish_quiet
      | out hable hcontra => rw [hlive] at hcontra; cases hcontra

/-- An action is started with all its requests before it. -/
theorem debts_start (hfit : n.Fit has) (rest : List Node) :
    (Cursor.running 0).debts ((n.start w).1 :: rest) = (Cursor.ready 0).debts (n :: rest) := by
  rw [Cursor.debts_ready, Cursor.debts_running, start_header]
  change (if n.header.able then _ else _) ++ _ = _
  cases hable : n.header.able with
  | false => rfl
  | true =>
      cases hfit with
      | @action h a hlive ha =>
          rw [start_leaf w h hable]
          exact congrArg ([·] ++ _) (a.pending_start w)
      | out hcontra hlive => rw [hable] at hcontra; cases hcontra

/-- An action that has stopped has been paid. -/
theorem pays_stopped (hfit : n.Fit has) (hactive : w.active = true) (hstop : n.hasStopped w = true)
    {rest : List Node} {made : List Request} {debts : List (List Request)}
    (hpays : Pays ((Cursor.ready 0).debts rest) made debts) :
    Pays ((Cursor.running 0).debts (n :: rest)) made debts := by
  rw [Cursor.debts_running]
  cases hlive : n.header.live with
  | false => exact hpays
  | true =>
      cases hfit with
      | @action h a hable ha =>
          obtain ⟨henabled, hfault⟩ := Bool.and_eq_true_iff.mp (hable hlive)
          have hgoing : (leaf h a).header.Going :=
            ⟨henabled, Option.isNone_iff_eq_none.mp hfault, hlive⟩
          have hcomplete : (leaf h a).isComplete = true := by
            simpa [hasStopped_of_going w hgoing, hactive] using hstop
          have hpending : (leaf h a).pending = [] := Leaf.pending_of_isOver hcomplete
          rw [if_pos rfl, hpending]
          exact .paid hpays
      | out hable hcontra => rw [hlive] at hcontra; cases hcontra

/-- An action that goes on asks for the next of its requests. -/
theorem pays_update (hfit : n.Fit has) (hgoes : n.hasStopped w = false) (rest : List Node) :
    ∃ made, Pays ((Cursor.running 0).debts (n :: rest)) made
        ((Cursor.running 0).debts ((n.update m w).1 :: rest)) ∧
      ∀ i : Intentions, i.has = has → i.outputs = [] →
        (Write.applyAll i (Effect.writes (n.update m w).2)).outputs = made.map (·.output w) := by
  have hlive : n.header.live = true := by
    by_contra hlive
    simp [hasStopped, isOver, hlive] at hgoes
  cases hfit with
  | @action h a hable ha =>
      obtain ⟨made, hpending, houtputs⟩ := a.asks_update w m ha
      have hupdate : (leaf h a).update m w =
          (leaf h (a.update m w).1, (a.update m w).2.map .write) := by
        rw [update_leaf, if_pos (show h.live = true from hlive)]
      refine ⟨made, ?_, ?_⟩
      · have hbefore : (leaf h a).pending = made ++ (leaf h (a.update m w).1).pending := hpending
        have hafter : (leaf h (a.update m w).1).header.live = true := hlive
        rw [hupdate, Cursor.debts_running, Cursor.debts_running, if_pos hlive, if_pos hafter,
          hbefore]
        exact .part made _ _
      · rw [hupdate, Effect.writes_map]
        exact houtputs
  | out hable hcontra => rw [hlive] at hcontra; cases hcontra

end Fit

/-- One tick of a flat script, from clear intentions: some requests are made, and they are what then
stands in the intentions. -/
theorem walk_pays {has : Capability → Bool} (m : Moment) {w : Surroundings}
    (hactive : w.active = true) (cursor : Cursor) {nodes : List Node}
    (hfit : ∀ n ∈ nodes, n.Fit has) :
    (∀ n ∈ (walk m w cursor nodes).1, n.Fit has) ∧
      ∃ made, Pays (cursor.debts nodes) made
          ((walk m w cursor nodes).2.1.debts (walk m w cursor nodes).1) ∧
        ∀ i : Intentions, i.has = has → i.outputs = [] →
          (Write.applyAll i (Effect.writes (walk m w cursor nodes).2.2)).outputs =
            made.map (·.output w) := by
  induction cursor, nodes using Cursor.walkInduction with
  | nil cursor =>
      have hnil : walk m w cursor [] = ([], (walk m w cursor []).2.1, []) := by cases cursor <;> rfl
      rw [hnil, Cursor.debts_nil, Cursor.debts_nil]
      exact ⟨hfit, [], .nothing, fun i _ hclear => hclear⟩
  | finished next nodes =>
      rw [walk]
      exact ⟨hfit, [], .nothing, fun i _ hclear => hclear⟩
  | shift cursor n rest ih =>
      obtain ⟨hn, hrest⟩ := List.forall_mem_cons.mp hfit
      obtain ⟨hafter, made, hpays, houtputs⟩ := ih hrest
      rw [walk_shift]
      refine ⟨List.forall_mem_cons.mpr ⟨hn, hafter⟩, made, ?_, houtputs⟩
      rwa [Cursor.debts_shift, Cursor.debts_shift]
  | running n rest ih =>
      obtain ⟨hn, hrest⟩ := List.forall_mem_cons.mp hfit
      rw [walk_running]
      cases hstop : n.hasStopped w with
      | true =>
          -- The end of an action writes a velocity at most, so the intentions are still clear for
          -- the action that comes next.
          obtain ⟨hafter, made, hpays, houtputs⟩ := ih hrest
          refine ⟨List.forall_mem_cons.mpr ⟨hn.finish, hafter⟩, made, ?_, fun i hi hclear => ?_⟩
          · rw [if_pos rfl, Cursor.debts_shift]
            exact hn.pays_stopped w hactive hstop hpays
          · rw [if_pos rfl, Effect.writes_append, Write.applyAll_append]
            exact houtputs _ ((Write.has_applyAll i _).trans hi)
              ((Intentions.outputs_quiet hn.finish_quiet).trans hclear)
      | false =>
          obtain ⟨made, hpays, houtputs⟩ := hn.pays_update m w hstop rest
          exact ⟨List.forall_mem_cons.mpr ⟨hn.update m w, hrest⟩, made, hpays, houtputs⟩
  | ready n rest ih =>
      obtain ⟨hn, hrest⟩ := List.forall_mem_cons.mp hfit
      obtain ⟨hafter, made, hpays, houtputs⟩ :=
        ih (n.start w).1 (List.forall_mem_cons.mpr ⟨hn.start w, hrest⟩)
      rw [walk_ready]
      refine ⟨hafter, made, ?_, fun i hi hclear => ?_⟩
      · rwa [hn.debts_start w] at hpays
      · rw [Effect.writes_append, Write.applyAll_append]
        exact houtputs _ ((Write.has_applyAll i _).trans hi)
          ((Intentions.outputs_quiet (hn.start_quiet w)).trans hclear)

/-- What the check of a flat script leaves of an action. -/
theorem fit_initFlat {w : Surroundings} {n : Node}
    (himpulse : ∀ h j, n = leaf h (.jump j) → (j.impulse != 0) = true)
    (hcount : ∀ h v, n = leaf h (.barrage v) → v.count ≤ 2 ^ 24) (first : Nat) :
    (n.initFlat w first).1.Fit w.has ∧
      (n.passesFlat w = true → (n.initFlat w first).1.requests = n.requests) := by
  rw [← n.initFlat_able w first]
  cases hcomposite : n.isComposite with
  | true =>
      have hreject : n.initFlat w first = n.reject first .nestedInFlatSequence := by
        rw [initFlat, if_pos hcomposite]
      have hable : (n.initFlat w first).1.header.able = false := by
        rw [hreject, reject, checked, withHeader_header]
        simp [Header.able, Header.initialised]
      exact ⟨.out hable (n.initFlat_not_live w first), by simp [hable]⟩
  | false =>
      obtain ⟨h, a, rfl⟩ := exists_leaf hcomposite
      rw [initFlat_leaf hcomposite, init]
      cases hinit : a.init w with
      | ok b =>
          obtain ⟨hrequests, hdeliverable⟩ := Leaf.deliverable_of_init hinit
            (fun j hj => himpulse h j (by rw [hj])) (fun v hv => hcount h v (by rw [hv]))
          exact ⟨.action (fun hlive => by cases hlive) hdeliverable, fun _ => hrequests⟩
      | error fault =>
          have hable : (leaf (h.initialised first (some fault)) a).header.able = false := by
            simp [header, Header.able, Header.initialised]
          exact ⟨.out hable rfl, fun hcontra => absurd (hable.symm.trans hcontra) (by simp)⟩

theorem fit_initFlatAll {w : Surroundings} {nodes : List Node}
    (himpulse : ∀ h j, leaf h (.jump j) ∈ nodes → (j.impulse != 0) = true)
    (hcount : ∀ h v, leaf h (.barrage v) ∈ nodes → v.count ≤ 2 ^ 24) (first : Nat) :
    (∀ n ∈ (initFlatAll w first nodes).1, n.Fit w.has) ∧
      (Cursor.ready 0).debts (initFlatAll w first nodes).1 =
        (nodes.filter (passesFlat w)).map requests := by
  induction nodes generalizing first with
  | nil => exact ⟨by simp [initFlatAll], rfl⟩
  | cons n rest ih =>
      obtain ⟨hn, hrequests⟩ := fit_initFlat (w := w) (n := n)
        (fun h j hj => himpulse h j (by simp [hj])) (fun h v hv => hcount h v (by simp [hv])) first
      obtain ⟨hrest, hdebts⟩ := ih (fun h j hj => himpulse h j (by simp [hj]))
        (fun h v hv => hcount h v (by simp [hv])) (first + 1)
      refine ⟨List.forall_mem_cons.mpr ⟨hn, hrest⟩, ?_⟩
      rw [initFlatAll, Cursor.debts_ready, initFlat_able, hdebts]
      cases hpasses : n.passesFlat w with
      | true => rw [List.filter_cons_of_pos hpasses, if_pos rfl, hrequests hpasses]; rfl
      | false => rw [List.filter_cons_of_neg (by simp [hpasses]), if_neg (by simp)]; rfl

end Node

/-! ### Runs -/

namespace Scene

/-- The scene at the beginning of each tick of a run in which the entity stays active. -/
def ticks : Nat → Scene → List Scene
  | 0, _ => []
  | ticks + 1, s =>
    s.later :: if s.later.frame.1.status = .running then Scene.ticks ticks s.later.frame.2 else []

theorem frames_eq_ticks (ticks : Nat) (s : Scene) :
    s.frames none ticks = (Scene.ticks ticks s).map (·.frame.1) := by
  induction ticks generalizing s with
  | zero => rfl
  | succ ticks ih =>
      rw [frames, Scene.ticks, List.map_cons]
      have hcurtail : s.later.curtail none = s.later := by simp [curtail]
      rw [hcurtail]
      change s.later.frame.1 ::
        (if s.later.frame.1.status = .running then frames none ticks s.later.frame.2 else []) = _
      rw [ih]
      split <;> rfl

/-- A flat script runs, and nothing that it asked for stands in the intentions. -/
structure Delivering (s : Scene) (actions : List Node) (cursor : Cursor) : Prop where
  status : s.driver.status = .running
  script : s.driver.script = some (.flat actions cursor)
  active : s.entity.active = true
  clear : s.entity.intentions.outputs = []
  fit : ∀ n ∈ actions, n.Fit s.entity.intentions.has

variable {s : Scene} {actions : List Node} {cursor : Cursor}

theorem Delivering.later (h : s.Delivering actions cursor) : s.later.Delivering actions cursor :=
  ⟨h.status, h.script, h.active, h.clear, h.fit⟩

theorem frame_eq {driver : Driver} {effects : List Effect}
    (htick : s.driver.tick s.moment s.entity.surroundings = (driver, effects)) :
    s.frame = (⟨Entity.events s.moment effects,
        ((s.entity.absorb effects).actuate s.moment).1, driver.status⟩,
      { s with driver := driver, entity := ((s.entity.absorb effects).actuate s.moment).2 }) := by
  rw [frame, call, Driver.call, htick]
  rfl

theorem Delivering.frame (h : s.Delivering actions cursor) :
    ∃ made debts, Pays (cursor.debts actions) made debts ∧
      s.frame.1.record.outputs = made.map (·.output s.entity.surroundings) ∧
      (s.frame.1.status = .finished ∧ debts = [] ∨
        s.frame.1.status = .running ∧ ∃ actions' cursor',
          s.frame.2.Delivering actions' cursor' ∧ cursor'.debts actions' = debts) := by
  obtain ⟨hstatus, hscript, hactive, hclear, hfit⟩ := h
  have hactive' : s.entity.surroundings.active = true := hactive
  cases hstop : (Script.flat actions cursor).hasStopped s.entity.surroundings with
  | true =>
      obtain ⟨next, rfl⟩ : ∃ next, cursor = .finished next := by
        cases cursor <;> simp_all [Script.hasStopped, Cursor.isFinished]
      have htick := Driver.tick_of_hasStopped s.moment _ hstatus hscript hstop
      have hfinish : (Script.flat actions (.finished next)).finish.2 = [] := by cases actions <;> rfl
      rw [hfinish, hactive'] at htick
      rw [frame_eq htick]
      exact ⟨[], [], .nothing, hclear, .inl ⟨rfl, rfl⟩⟩
  | false =>
      have htick := Driver.tick_of_not_hasStopped s.moment _ hstatus hscript hstop
      obtain ⟨hafter, made, hpays, houtputs⟩ :=
        Node.walk_pays s.moment hactive' cursor hfit
      rw [frame_eq htick]
      refine ⟨made, _, hpays, ?_, .inr ⟨hstatus, _, _, ⟨hstatus, rfl, hactive, ?_, ?_⟩, rfl⟩⟩
      · rw [Entity.actuate_outputs]
        exact houtputs _ rfl hclear
      · exact Entity.actuate_clear _ _
      · rw [Entity.actuate_has]
        simpa only [Entity.absorb, Write.has_applyAll] using hafter

/-- One batch of requests for each tick: the record of the tick tells what comes of them. -/
def Deliver (run : List Scene) (batches : List (List Request)) : Prop :=
  List.Forall₂ (fun s made => s.frame.1.record.outputs = made.map (·.output s.entity.surroundings))
    run batches

theorem Delivering.deliver (h : s.Delivering actions cursor) {ticks : Nat}
    (hfinished : ∃ t ∈ Scene.ticks ticks s, t.frame.1.status = .finished) :
    ∃ batches, Deliver (Scene.ticks ticks s) batches ∧ Settles batches (cursor.debts actions) := by
  -- On the ticks from the front, since a batch is added to the debts that are left after it.
  induction ticks generalizing s actions cursor with
  | zero => simp [Scene.ticks] at hfinished
  | succ ticks ih =>
      rw [Scene.ticks] at hfinished ⊢
      obtain ⟨made, debts, hpays, houtputs, hnext⟩ := h.later.frame
      rcases hnext with ⟨hstatus, rfl⟩ | ⟨hstatus, actions', cursor', hdelivering, rfl⟩
      · rw [if_neg (by simp [hstatus])]
        exact ⟨[made], .cons houtputs .nil, hpays.settles ⟨[], rfl, rfl⟩⟩
      · rw [if_pos hstatus] at hfinished ⊢
        have hlater : ∃ t ∈ Scene.ticks ticks s.later.frame.2, t.frame.1.status = .finished := by
          obtain ⟨t, ht, hdone⟩ := hfinished
          rcases List.mem_cons.mp ht with rfl | ht
          · rw [hstatus] at hdone
            cases hdone
          · exact ⟨t, ht, hdone⟩
        obtain ⟨batches, hdeliver, hsettles⟩ := ih hdelivering hlater
        exact ⟨made :: batches, .cons houtputs hdeliver, hpays.settles hsettles⟩

end Scene

/-- The scene of a run after its script has been activated. -/
def Settings.opened (s : Settings) (script : Script) : Scene :=
  ((Scene.prepare s script).call (.activate none)).1

theorem Settings.opened_delivering (settings : Settings) {actions : List Node} (cursor : Cursor)
    (himpulse : ∀ h j, .leaf h (.jump j) ∈ actions → (j.impulse != 0) = true)
    (hcount : ∀ h v, .leaf h (.barrage v) ∈ actions → v.count ≤ 2 ^ 24) :
    (settings.opened (.flat actions cursor)).Delivering
      (Node.initFlatAll (Entity.spawn settings).surroundings 0 actions).1 (.ready 0) := by
  have hsome : (none <|> some (Script.flat actions cursor)) = some (.flat actions cursor) := rfl
  have hactivate := Driver.activate_of_some (Entity.spawn settings).surroundings
    (d := { default := some (.flat actions cursor) }) (by simp) hsome
  have hwrites : Effect.writes (Driver.activate (Entity.spawn settings).surroundings none
      { default := some (.flat actions cursor) }).1.2 = [] := by
    rw [hactivate, Effect.writes_append, Effect.writes_append, Effect.writes_events]
    rfl
  have hintentions : (settings.opened (.flat actions cursor)).entity.intentions =
      .ofCapabilities settings.capabilities :=
    congrArg (Write.applyAll (.ofCapabilities settings.capabilities)) hwrites
  refine ⟨?_, ?_, rfl, ?_, ?_⟩
  · exact congrArg (·.1.1.status) hactivate
  · exact congrArg (·.1.1.script) hactivate
  · rw [hintentions, Intentions.outputs_ofCapabilities]
  · rw [hintentions]
    exact (Node.fit_initFlatAll himpulse hcount 0).1

/-- **Every request is delivered once.** Let a flat script, whose jumps have an impulse and whose
barrages have at most `2 ^ 24` bullets, run for an entity that stays active until the driver has
finished. What the records tell of things done once is, in order, what comes of all the requests of
the actions that are enabled and pass their check, each made in the surroundings of its tick. No
record tells of two actions, and after no tick does a request still stand in the intentions. -/
theorem requests_delivered_once (settings : Settings) {actions : List Node} (cursor : Cursor)
    (himpulse : ∀ h j, .leaf h (.jump j) ∈ actions → (j.impulse != 0) = true)
    (hcount : ∀ h v, .leaf h (.barrage v) ∈ actions → v.count ≤ 2 ^ 24) {ticks : Nat}
    (hfinished : ∃ f ∈ (settings.opened (.flat actions cursor)).frames none ticks,
      f.status = .finished) :
    let opened := settings.opened (.flat actions cursor)
    let run := opened.ticks ticks
    let asked := (actions.filter (Node.passesFlat (Entity.spawn settings).surroundings)).map
      Node.requests
    opened.frames none ticks = run.map (·.frame.1) ∧
      (∃ batches, Scene.Deliver run batches ∧ batches.flatten = asked.flatten ∧
        Settles batches asked) ∧
      ∀ s ∈ run, s.frame.2.entity.intentions.outputs = [] := by
  intro opened run asked
  have hopened : opened.Delivering _ _ := settings.opened_delivering cursor himpulse hcount
  have hframes : opened.frames none ticks = run.map (·.frame.1) := opened.frames_eq_ticks ticks
  have hdone : ∃ t ∈ run, t.frame.1.status = .finished := by
    obtain ⟨f, hf, hdone⟩ := hfinished
    rw [hframes] at hf
    obtain ⟨t, ht, rfl⟩ := List.mem_map.mp hf
    exact ⟨t, ht, hdone⟩
  obtain ⟨batches, hdeliver, hsettles⟩ := hopened.deliver hdone
  rw [(Node.fit_initFlatAll himpulse hcount 0).2] at hsettles
  exact ⟨hframes, ⟨batches, hdeliver, hsettles.flatten_eq, hsettles⟩,
    fun s _ => Entity.actuate_clear _ _⟩

/-- A jump, a strike that is disabled, a walk, a barrage over three ticks, and a throw. -/
theorem requests_delivered_once_salvo :
    let settings : Settings := {}
    let salvo : List Node := [.leaf {} (.jump { impulse := 5 }),
      .leaf { enabled := false } (.attack {}), .leaf {} (.walk { speed := 1 }),
      .leaf {} (.barrage { angleStart := 0, angleEnd := 90, bulletCount := 3, duration := 0.05 }),
      .leaf {} (.lob { speed := 2 })]
    let opened := settings.opened (.flat salvo)
    let run := opened.ticks 8
    let asked := (salvo.filter (Node.passesFlat (Entity.spawn settings).surroundings)).map
      Node.requests
    (opened.frames none 8 = run.map (·.frame.1) ∧
      (∃ batches, Scene.Deliver run batches ∧ batches.flatten = asked.flatten ∧
        Settles batches asked) ∧
      ∀ s ∈ run, s.frame.2.entity.intentions.outputs = []) ∧
    asked.map List.length = [1, 0, 3, 1] ∧
    run.map (·.frame.1.record.outputs.length) = [1, 1, 0, 1, 1, 1, 0, 0] := by
  intro settings salvo opened run asked
  refine ⟨requests_delivered_once settings (.ready 0) ?_ ?_ ?_, ?_, ?_⟩
  · intro h j hj
    obtain ⟨_, rfl⟩ : h = {} ∧ j = { impulse := 5 } := by simpa [salvo] using hj
    decide +kernel
  · intro h v hv
    obtain ⟨_, rfl⟩ : h = {} ∧ v = ⟨0, 90, 3, 0.05, .forward, 0, 0⟩ := by simpa [salvo] using hv
    decide +kernel
  · decide +kernel
  · decide +kernel
  · decide +kernel

end Choreo
