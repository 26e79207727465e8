import Choreo.Proofs.Image
import Choreo.Proofs.Node.Renumbering

/-!
# Flat scripts and sequences

A flat script of leaves and a tree whose root is a sequence of the same leaves are two ways to run
them one after another. The tree has one node more, which takes the number zero; apart from that the
two drivers go through the same states and have the same effects in every call. The events of the
root are the only thing that `lowered` takes out of the trace of the tree.
-/

namespace Choreo

/-- The report on a list of nodes below a root that has nothing wrong with it. -/
def Report.raise (r : Report) : Report :=
  { faults := r.faults.map (NodeFault.renumber (· + 1)), nodeCount := r.nodeCount + 1 }

/-- A trace without the events of node zero, and with the other nodes counted from one less on. -/
def lowered (trace : List Event) : List Event :=
  (trace.filter fun e => e.node ≠ some 0).map fun e => { e with node := e.node.map (· - 1) }

theorem lowered_append (front back : List Event) :
    lowered (front ++ back) = lowered front ++ lowered back := by
  simp [lowered]

/-- What is left of an effect in the trace without node zero. -/
def Effect.lower? : Effect → Option Effect
  | event h => if h.node = some 0 then none else some (event (h.renumber (· - 1)))
  | write w => some (write w)

namespace Effect

theorem lower_raised (effects : List Effect) :
    (effects.map (Effect.renumber (· + 1))).filterMap lower? = effects := by
  rw [List.filterMap_map]
  have hsome : ∀ e : Effect, (lower? ∘ Effect.renumber (· + 1)) e = some e := by
    intro e
    cases e with
    | write w => rfl
    | event h => cases h <;> simp [lower?, Effect.renumber, Happening.renumber, Happening.node]
  rw [funext hsome, List.filterMap_some]

theorem writes_lower (effects : List Effect) :
    writes (effects.filterMap lower?) = writes effects := by
  rw [writes, writes, List.filterMap_filterMap]
  refine List.filterMap_congr fun e _ => ?_
  cases e with
  | write w => rfl
  | event h =>
      by_cases hroot : h.node = some 0 <;> simp [lower?, hroot, write?]

theorem events_lower (m : Moment) (effects : List Effect) :
    Entity.events m (effects.filterMap lower?) = lowered (Entity.events m effects) := by
  induction effects with
  | nil => rfl
  | cons e effects ih =>
      have hsplit : ∀ front back : List Effect, Entity.events m (front ++ back) =
          Entity.events m front ++ Entity.events m back := by
        intro front back
        simp [Entity.events, happenings]
      have hone : Entity.events m ([e].filterMap lower?) = lowered (Entity.events m [e]) := by
        cases e with
        | write w => rfl
        | event h =>
            by_cases hroot : h.node = some 0
            · simp [lower?, hroot, lowered, Entity.events, happenings, happening?, Happening.at]
            · cases h <;> simp_all [lower?, lowered, Entity.events, happenings, happening?,
                Happening.at, Happening.node, Happening.renumber, Happening.tag]
      rw [← List.singleton_append, List.filterMap_append, hsplit, hsplit, lowered_append, hone,
        ih]

end Effect

/-! ### Initialising -/

namespace Node

variable (w : Surroundings)

theorem initFlatAll_of_leaves {nodes : List Node} (hleaves : ∀ n ∈ nodes, n.isComposite = false)
    (first : Nat) : initFlatAll w first nodes = initAll w first nodes := by
  induction nodes generalizing first with
  | nil => rfl
  | cons n rest ih =>
      have hn : n.isComposite = false := hleaves n (by simp)
      have hsize : n.size = 1 := by cases n <;> simp_all [isComposite, size]
      have hrest := ih (fun k hk => hleaves k (by simp [hk])) (first + 1)
      rw [initFlatAll, initAll, initFlat, if_neg (by simp [hn]), hsize, hrest]

theorem sizeAll_of_leaves {nodes : List Node} (hleaves : ∀ n ∈ nodes, n.isComposite = false) :
    sizeAll nodes = nodes.length := by
  induction nodes with
  | nil => rfl
  | cons n rest ih =>
      have hn : n.isComposite = false := hleaves n (by simp)
      have hsize : n.size = 1 := by cases n <;> simp_all [isComposite, size]
      have hrest := ih fun k hk => hleaves k (by simp [hk])
      rw [sizeAll, hsize, hrest, List.length_cons]
      omega

end Node

/-! ### The simulation -/

namespace FlatSequence

abbrev tree (actions : List Node) : Script := .tree (.sequence {} actions (.ready 0))

abbrev raised (nodes : List Node) : List Node := nodes.map (Node.renumber (· + 1))

/-- The tree script is the flat one under a live root. -/
inductive Mirror : Script → Script → Prop
  | under {h : Header} (nodes : List Node) (cursor : Cursor) (hgoing : h.Going)
      (hactive : h.active = true) (hid : h.id = 0) :
      Mirror (.flat nodes cursor) (.tree (.sequence h (raised nodes) cursor))

structure Agree (actions : List Node) (flat tree : Driver) : Prop where
  flatDefault : flat.default = some (.flat actions)
  treeDefault : tree.default = some (FlatSequence.tree actions)
  status : tree.status = flat.status
  report : flat.status ≠ .idle → tree.report = flat.report.raise
  scripts : flat.status = .running →
    ∃ f t, flat.script = some f ∧ tree.script = some t ∧ Mirror f t

variable {m : Moment} {w : Surroundings} {actions : List Node} {flat tree : Driver}

theorem Mirror.hasStopped {f t : Script} (h : Mirror f t) (w : Surroundings) :
    t.hasStopped w = f.hasStopped w := by
  obtain @⟨h, nodes, cursor, hgoing, _, _⟩ := h
  exact Node.hasStopped_of_going w (n := .sequence h (raised nodes) cursor) hgoing

theorem Mirror.update {f t : Script} (h : Mirror f t) :
    Mirror (f.update m w).1 (t.update m w).1 ∧
      (t.update m w).2.filterMap Effect.lower? = (f.update m w).2 := by
  obtain @⟨h, nodes, cursor, hgoing, hactive, hid⟩ := h
  have hwalk : Node.walk m w cursor (raised nodes) =
      (raised (Node.walk m w cursor nodes).1, (Node.walk m w cursor nodes).2.1,
        (Node.walk m w cursor nodes).2.2.map (Effect.renumber (· + 1))) :=
    Node.walk_renumber _ m w nodes cursor
  have hupdate := Node.update_sequence m w h hgoing.live (raised nodes) cursor
  rw [hwalk] at hupdate
  rw [Script.update, Script.update, hupdate]
  exact ⟨.under _ _ hgoing hactive hid, Effect.lower_raised _⟩

theorem Mirror.finish {f t : Script} (h : Mirror f t) :
    t.finish.2.filterMap Effect.lower? = f.finish.2 := by
  obtain @⟨h, nodes, cursor, hgoing, hactive, hid⟩ := h
  have hfinishAt : Node.finishAt cursor (raised nodes) =
      (raised (Node.finishAt cursor nodes).1,
        (Node.finishAt cursor nodes).2.map (Effect.renumber (· + 1))) :=
    Node.finishAt_renumber _ (fun n _ => n.finish_renumber _) cursor
  have hfinish := Node.finish_sequence h hactive hgoing.live (raised nodes) cursor
  rw [hfinishAt] at hfinish
  rw [Script.finish, hfinish, List.filterMap_append, Effect.lower_raised]
  simp [Effect.lower?, Happening.node, hid, Script.finish]

/-- Both scripts find the same faults, and the tree adds nothing but the start of its root. -/
theorem mirror_activate (hleaves : ∀ n ∈ actions, n.isComposite = false) (w : Surroundings) :
    Mirror (((Script.flat actions).init w).1.start w).1
        (((FlatSequence.tree actions).init w).1.start w).1 ∧
      (((FlatSequence.tree actions).init w).1.start w).2.filterMap Effect.lower? =
        (((Script.flat actions).init w).1.start w).2 ∧
      ((FlatSequence.tree actions).init w).2 = ((Script.flat actions).init w).2.raise := by
  have hflat := Node.initFlatAll_of_leaves w hleaves 0
  have hinit : ∀ n ∈ actions, ∀ first, n.init w (first + 1) = Node.raise 1 (n.init w first) :=
    fun n _ first => n.init_raise w first 1
  have hraise := Node.initAll_raise w hinit 0
  rw [Nat.zero_add] at hraise
  have hlive : (Header.initialised {} 0 none).opened.live = true := rfl
  have hstart := Node.start_sequence w (Header.initialised {} 0 none) hlive
    (raised (Node.initAll w 0 actions).1) (.ready 0)
  have htree : (FlatSequence.tree actions).init w =
      (.tree (.sequence (Header.initialised {} 0 none) (raised (Node.initAll w 0 actions).1)
          (.ready 0)),
        ⟨(Node.initAll w 0 actions).2.map (NodeFault.renumber (· + 1)),
          1 + Node.sizeAll actions⟩) := by
    rw [Script.init, Node.init, Nat.zero_add, hraise]
    rfl
  have hsize := Node.sizeAll_of_leaves hleaves
  rw [htree, Script.init, hflat, Script.start, Script.start, hstart, Report.raise, hsize]
  refine ⟨?_, rfl, ?_⟩
  · exact .under _ _ ⟨rfl, rfl, rfl⟩ rfl rfl
  · rw [Nat.add_comm 1]

/-- Two drivers agree, and so do the effects of a call on each of them. -/
def AgreeAfter (actions : List Node) (flat tree : Driver × List Effect) : Prop :=
  Agree actions flat.1 tree.1 ∧ tree.2.filterMap Effect.lower? = flat.2

theorem imaging_mirror : Imaging Effect.lower? fun t f => Mirror f t where
  stopped := rfl
  finished := rfl
  hasStopped h w := (h.hasStopped w).symm
  update h _ _ := h.update
  finish h := h.finish

theorem Agree.images (h : Agree actions flat tree) : tree.Images (fun t f => Mirror f t) flat where
  status := h.status.symm
  scripts hrunning :=
    let ⟨f, t, hf, ht, hmirror⟩ := h.scripts (h.status.symm.trans hrunning)
    ⟨t, f, ht, hf, hmirror⟩

theorem Agree.of_images {flat' tree' : Driver} (h : Agree actions flat tree)
    (himages : tree'.Images (fun t f => Mirror f t) flat') (hflat : flat'.default = flat.default)
    (htree : tree'.default = tree.default)
    (hreport : flat'.status ≠ .idle → tree'.report = flat'.report.raise) :
    Agree actions flat' tree' where
  flatDefault := hflat.trans h.flatDefault
  treeDefault := htree.trans h.treeDefault
  status := himages.status.symm
  report := hreport
  scripts hrunning :=
    let ⟨t, f, ht, hf, hmirror⟩ := himages.scripts (himages.status.symm.trans hrunning)
    ⟨f, t, hf, ht, hmirror⟩

theorem Agree.stop (h : Agree actions flat tree) : AgreeAfter actions flat.stop tree.stop := by
  obtain ⟨himages, htold⟩ := h.images.stop imaging_mirror.simulating
  refine ⟨h.of_images himages flat.stop_default tree.stop_default fun hidle => ?_, htold⟩
  rw [flat.stop_report, tree.stop_report]
  refine h.report fun hcontra => hidle ?_
  rw [Driver.stop_of_not_running (by simp [hcontra]), hcontra]

theorem Agree.tick (h : Agree actions flat tree) (m : Moment) (w : Surroundings) :
    AgreeAfter actions (flat.tick m w) (tree.tick m w) := by
  obtain ⟨himages, htold⟩ := h.images.tick imaging_mirror.simulating m w
  refine ⟨h.of_images himages (flat.tick_default m w) (tree.tick_default m w) fun hidle => ?_,
    htold⟩
  rw [flat.tick_report, tree.tick_report]
  refine h.report fun hcontra => hidle ?_
  rw [Driver.tick_of_not_running m w (by simp [hcontra]), hcontra]

theorem lower_faults (r : Report) :
    (r.raise.happenings.map Effect.event).filterMap Effect.lower? =
      r.happenings.map Effect.event := by
  have hraised : r.raise.happenings.map Effect.event =
      (r.happenings.map Effect.event).map (Effect.renumber (· + 1)) := by
    simp only [Report.happenings, Report.raise, List.map_map]
    rfl
  rw [hraised, Effect.lower_raised]

theorem Agree.activate (hleaves : ∀ n ∈ actions, n.isComposite = false)
    (h : Agree actions flat tree) (w : Surroundings) :
    AgreeAfter actions (flat.activate w none).1 (tree.activate w none).1 := by
  obtain ⟨hstopped, hclosing⟩ := h.stop
  have hflat : (none <|> flat.stop.1.default) = some (.flat actions) := hstopped.flatDefault
  have htree : (none <|> tree.stop.1.default) = some (FlatSequence.tree actions) :=
    hstopped.treeDefault
  obtain ⟨hmirror, hopening, hreport⟩ := mirror_activate hleaves w
  rw [Driver.activate_eq w none flat, Driver.activate_eq w none tree,
    Driver.activate_of_some w flat.stop_status_ne_running hflat,
    Driver.activate_of_some w tree.stop_status_ne_running htree]
  refine ⟨⟨hstopped.flatDefault, hstopped.treeDefault, rfl, fun _ => hreport, ?_⟩, ?_⟩
  · exact fun _ => ⟨_, _, rfl, rfl, hmirror⟩
  · simp only [List.filterMap_append, hclosing, hopening, hreport, lower_faults]
    rfl

theorem Agree.call (hleaves : ∀ n ∈ actions, n.isComposite = false)
    (h : Agree actions flat tree) (m : Moment) (w : Surroundings) {call : Driver.Call}
    (hcall : call.Plain) : AgreeAfter actions (flat.call m w call) (tree.call m w call) := by
  cases call with
  | activate override =>
      cases override with
      | none => exact h.activate hleaves w
      | some script => exact absurd rfl (hcall script)
  | tick => exact h.tick m w
  | stop => exact h.stop

/-! ### Whole sessions -/

structure Parallels (actions : List Node) (flat tree : Session) : Prop where
  drivers : Agree actions flat.driver tree.driver
  intentions : tree.intentions = flat.intentions
  trace : lowered tree.trace = flat.trace

theorem Parallels.beat {flat tree : Session} (hleaves : ∀ n ∈ actions, n.isComposite = false)
    (h : Parallels actions flat tree) {b : Beat} (hcall : b.call.Plain) :
    Parallels actions (flat.beat b) (tree.beat b) := by
  obtain ⟨hdrivers, heffects⟩ := h.drivers.call hleaves b.moment b.surroundings hcall
  have hwrites := Effect.writes_lower (tree.driver.call b.moment b.surroundings b.call).2
  have hevents := Effect.events_lower b.moment (tree.driver.call b.moment b.surroundings b.call).2
  rw [heffects] at hwrites hevents
  refine ⟨hdrivers, ?_, ?_⟩
  · rw [Session.beat_intentions, Session.beat_intentions, h.intentions, ← hwrites]
  · rw [Session.beat_trace, Session.beat_trace, lowered_append, h.trace, ← hevents]

theorem Parallels.run {flat tree : Session} (hleaves : ∀ n ∈ actions, n.isComposite = false)
    (h : Parallels actions flat tree) {beats : List Beat} (hcalls : ∀ b ∈ beats, b.call.Plain) :
    Parallels actions (flat.run beats) (tree.run beats) := by
  have hbeat : ∀ flat tree (b : Beat), Parallels actions flat tree → b.call.Plain →
      Parallels actions (flat.beat b) (tree.beat b) := fun _ _ _ h hcall => h.beat hleaves hcall
  exact Session.run_relates hbeat h hcalls

end FlatSequence

open FlatSequence in
/-- **The two ways to run leaves in turn agree.** After every call the drivers have the same status
and have done the same to their entities; the tree tells the same events and faults under numbers one
higher, and besides them only those of its root. -/
theorem flat_script_agrees_with_sequence {actions : List Node}
    (hleaves : ∀ n ∈ actions, n.isComposite = false) {beats : List Beat}
    (hcalls : ∀ b ∈ beats, ∀ script, b.call ≠ .activate (some script)) (intentions : Intentions) :
    let flat := (Session.fresh (some (.flat actions)) intentions).run beats
    let tree :=
      (Session.fresh (some (.tree (.sequence {} actions (.ready 0)))) intentions).run beats
    tree.driver.status = flat.driver.status ∧ tree.intentions = flat.intentions ∧
      (flat.driver.status ≠ .idle → tree.driver.report = flat.driver.report.raise) ∧
      lowered tree.trace = flat.trace := by
  have hfresh : Parallels actions (Session.fresh (some (.flat actions)) intentions)
      (Session.fresh (some (tree actions)) intentions) :=
    ⟨⟨rfl, rfl, rfl, fun hidle => absurd rfl hidle, fun hrunning => by cases hrunning⟩, rfl, rfl⟩
  obtain ⟨hdrivers, hintentions, htrace⟩ := hfresh.run hleaves hcalls
  exact ⟨hdrivers.status, hintentions, hdrivers.report, htrace⟩

theorem flat_script_agrees_with_sequence_sortie :
    let actions : List Node := [.leaf {} (.walk ⟨0⟩), .leaf {} (.attack {})]
    let beats : List Beat :=
      [⟨⟨0, 0⟩, {}, fun i => i, .activate none⟩, ⟨⟨1, 0⟩, {}, fun i => i, .tick⟩]
    let flat := (Session.fresh (some (.flat actions)) .all).run beats
    let tree := (Session.fresh (some (.tree (.sequence {} actions (.ready 0)))) .all).run beats
    lowered tree.trace = flat.trace ∧ flat.trace.map (fun e => (e.tag, e.node)) =
      [("script.activate", none), ("node.start", some 0), ("node.end", some 0),
        ("node.start", some 1)] := by
  intro actions beats
  have hleaves : ∀ n ∈ actions, n.isComposite = false := by simp [actions, Node.isComposite]
  have hcalls : ∀ b ∈ beats, ∀ script, b.call ≠ .activate (some script) := by simp [beats]
  exact ⟨(flat_script_agrees_with_sequence hleaves hcalls .all).2.2.2, rfl⟩

end Choreo
