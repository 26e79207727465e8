import Choreo.Proofs.Node.Siblings
import Choreo.Proofs.Session

/-!
# A parallel is a product

A driver that runs a parallel and one that runs only a child of it, given the same calls, keep the
child in the same state: whatever the first does in a call, it gives every child one turn, and that
turn is all that the second does. So the parallel is the product of its children's drivers, and its
own driver finishes one tick after the last of them.
-/

namespace Choreo

/-- The event is about one of `size` nodes from a number on. -/
def Event.within (offset size : Nat) (e : Event) : Bool :=
  e.node.any fun id => offset ≤ id && id < offset + size

def Event.shift (offset : Nat) (e : Event) : Event := { e with node := e.node.map (· + offset) }

def Driver.root (d : Driver) : Option Node :=
  match d.script with
  | some (.tree root) => some root
  | _ => none

namespace Product

/-- Two series of effects tell the same of a node and its descendants, which the first numbers from
`offset` on and the second from zero on. -/
def Echoes (offset size : Nat) (whole part : List Effect) : Prop :=
  (Effect.happenings whole).filter (Happening.within offset size) =
    ((Effect.happenings part).filter (·.node.isSome)).map (Happening.renumber (· + offset))

theorem Echoes.append {offset size : Nat} {whole more part rest : List Effect}
    (h : Echoes offset size whole part) (hmore : Echoes offset size more rest) :
    Echoes offset size (whole ++ more) (part ++ rest) := by
  rw [Echoes, Node.happenings_append, Node.happenings_append, List.filter_append,
    List.filter_append, List.map_append, h, hmore]

/-- A driver that has run a parallel, with the children as they are now. -/
structure Whole (d : Driver) (h : Header) (running : List Bool) (nodes : List Node) : Prop where
  script : d.script = some (.tree (.parallel h nodes running))
  able : h.able = true
  id : h.id = 0
  live : h.live = d.isRunning
  sound : (Node.parallel h nodes running).Sound
  nodup : (Node.parallel h nodes running).ids.Nodup

/-- A driver that has run a tree, as the tree is now. -/
structure Part (d : Driver) (root : Node) : Prop where
  script : d.script = some (.tree root)
  active : root.header.active = d.isRunning
  sound : root.Sound

/-- What a call comes to when it gives every child a turn. The events besides those of the turns are
about the root or about the script. -/
structure WholeTurn (turn : Node → Node × List Effect) (nodes : List Node)
    (result : Driver × List Effect) : Prop where
  whole : ∃ h running, Whole result.1 h running (nodes.map fun n => (turn n).1)
  happenings : ∃ own, (∀ h ∈ own, h.node = none ∨ h.node = some 0) ∧
    Effect.happenings result.2 = Effect.happenings (nodes.flatMap fun n => (turn n).2) ++ own

structure PartTurn (turn : Node → Node × List Effect) (root : Node)
    (result : Driver × List Effect) : Prop where
  part : Part result.1 (turn root).1
  happenings : ∃ own, (∀ h ∈ own, h.node = none) ∧
    Effect.happenings result.2 = Effect.happenings (turn root).2 ++ own

/-! ### The driver of the parallel -/

section Whole

variable {d : Driver} {h : Header} {running : List Bool} {nodes : List Node}

theorem Whole.nodes_nodup (hwhole : Whole d h running nodes) :
    0 ∉ nodes.flatMap Node.ids ∧ (nodes.flatMap Node.ids).Nodup := by
  obtain ⟨hroot, hnodes⟩ := Node.nodup_below hwhole.nodup
  rw [← hwhole.id]
  exact ⟨hroot, hnodes⟩

theorem Whole.nodes_rest (hwhole : Whole d h running nodes) (hstatus : d.status ≠ .running) :
    ∀ n ∈ nodes, n.header.active = false := by
  have hrest : d.isRunning = false := by simpa [Driver.isRunning] using hstatus
  exact hwhole.sound.upright.children_rest (hwhole.live.trans hrest)

theorem Whole.of_running (hwhole : Whole d h running nodes) (hstatus : d.status = .running) :
    h.live = true ∧ h.active = true ∧ running = nodes.map (·.header.active) := by
  have hlive : h.live = true := by
    rw [hwhole.live]
    exact d.isRunning_iff.mpr hstatus
  exact ⟨hlive, hwhole.sound.upright.active_of_live hlive, hwhole.sound.tidy hlive⟩

theorem Whole.going (hwhole : Whole d h running nodes) (hstatus : d.status = .running) :
    h.Going := by
  have hable := hwhole.able
  rw [Header.able, Bool.and_eq_true] at hable
  exact ⟨hable.1, Option.isNone_iff_eq_none.mp hable.2, (hwhole.of_running hstatus).1⟩

theorem Whole.rest (hwhole : Whole d h running nodes) {turn : Node → Node × List Effect}
    (hturn : ∀ n ∈ nodes, turn n = (n, [])) : WholeTurn turn nodes (d, []) := by
  have hnodes : (nodes.map fun n => (turn n).1) = nodes := by
    rw [List.map_congr_left fun n hn => congrArg Prod.fst (hturn n hn), List.map_id']
  have heffects : (nodes.flatMap fun n => (turn n).2) = [] := by
    rw [List.flatMap_eq_nil_iff]
    exact fun n hn => congrArg Prod.snd (hturn n hn)
  refine ⟨⟨h, running, ?_⟩, [], by simp, by rw [heffects]; rfl⟩
  rwa [hnodes]

theorem Whole.close (hwhole : Whole d h running nodes) (hstatus : d.status = .running)
    (status : Status) (hclosed : status ≠ .running) (closing : Happening)
    (hclosing : closing.node = none) :
    WholeTurn Node.finish nodes
      ({ d with
          script := some (Script.tree (.parallel h nodes running)).finish.1
          status := status },
        (Script.tree (.parallel h nodes running)).finish.2 ++ [.event closing]) := by
  obtain ⟨hlive, hactive, hrunning⟩ := hwhole.of_running hstatus
  have hlocal := Node.local_finish hwhole.sound
  have hfinish := Node.finish_parallel h hactive hlive nodes running
  have htidy := Node.finishRunning_tidy nodes
  rw [← hrunning] at htidy
  rw [htidy] at hfinish
  rw [hfinish] at hlocal
  rw [Script.finish, hfinish]
  refine ⟨⟨h.closed, running.map fun _ => false,
    ⟨rfl, hwhole.able, hwhole.id, ?_, hlocal.sound, ?_⟩⟩, [.ended h.id, closing], ?_, ?_⟩
  · exact (show (status == .running) = false by simpa using hclosed).symm
  · rw [hlocal.ids]
    exact hwhole.nodup
  · intro x hx
    rcases List.mem_cons.mp hx with rfl | hx
    · exact Or.inr (congrArg some hwhole.id)
    · rw [List.mem_singleton.mp hx]
      exact Or.inl hclosing
  · rw [Node.happenings_append, Node.happenings_append, List.append_assoc]
    rfl

theorem Whole.stop (hwhole : Whole d h running nodes) : WholeTurn Node.finish nodes d.stop := by
  by_cases hstatus : d.status = .running
  · rw [Driver.stop_of_running hstatus hwhole.script]
    exact hwhole.close hstatus .stopped (by simp) .stopped rfl
  · rw [Driver.stop_of_not_running hstatus]
    exact hwhole.rest fun n hn => Node.finish_of_not_active (hwhole.nodes_rest hstatus n hn)

theorem Whole.hasStopped (hwhole : Whole d h running nodes) (hstatus : d.status = .running)
    (w : Surroundings) : (Script.tree (.parallel h nodes running)).hasStopped w =
      (!w.active || nodes.all fun n => !n.header.active) := by
  have hgoing := hwhole.going hstatus
  obtain ⟨_, _, hrunning⟩ := hwhole.of_running hstatus
  have hstopped := Node.hasStopped_of_going w (n := .parallel h nodes running) hgoing
  have hcomplete : (Node.parallel h nodes running).isComplete =
      nodes.all fun n => !n.header.active := by
    rw [Node.isComplete, hrunning, List.all_map]
    rfl
  rw [hcomplete] at hstopped
  exact hstopped

theorem Whole.tick (hwhole : Whole d h running nodes) (m : Moment) (w : Surroundings) :
    WholeTurn (Node.advance m w) nodes (d.tick m w) := by
  by_cases hstatus : d.status = .running
  · have hstopped := hwhole.hasStopped hstatus w
    cases hstop : (!w.active || nodes.all fun n => !n.header.active) with
    | true =>
        -- Either the entity is inactive or no child runs; both ways a turn is an end.
        have hturn : ∀ n ∈ nodes, n.advance m w = n.finish := by
          intro n hn
          rw [Bool.or_eq_true] at hstop
          rcases hstop with hw | hrest
          · exact Node.advance_of_inactive m (by simpa using hw) n
          · have hn : n.header.active = false := by simpa using List.all_eq_true.mp hrest n hn
            rw [Node.advance_of_not_active m w hn, Node.finish_of_not_active hn]
        have hmap : (nodes.map fun n => (n.advance m w).1) = nodes.map fun n => n.finish.1 :=
          List.map_congr_left fun n hn => congrArg Prod.fst (hturn n hn)
        have hflatMap : (nodes.flatMap fun n => (n.advance m w).2) =
            nodes.flatMap fun n => n.finish.2 :=
          List.flatMap_congr fun n hn => congrArg Prod.snd (hturn n hn)
        rw [hstop] at hstopped
        rw [Driver.tick_of_hasStopped m w hstatus hwhole.script hstopped]
        have hclose : WholeTurn Node.finish nodes _ := hwhole.close hstatus
          (if w.active then .finished else .stopped) (by cases w.active <;> simp)
          (if w.active then .finished else .stopped) (by cases w.active <;> rfl)
        obtain ⟨hafter, hevents⟩ := hclose
        rw [← hmap] at hafter
        rw [← hflatMap] at hevents
        exact ⟨hafter, hevents⟩
    | false =>
        rw [hstop] at hstopped
        obtain ⟨hlive, hactive, hrunning⟩ := hwhole.of_running hstatus
        have hlocal := (hwhole.sound.operable.update (m := m) (w := w) hactive).isLocal
        have hupdate := Node.update_parallel m w h hlive nodes running
        have htidy := Node.updateRunning_tidy m w nodes
        rw [← hrunning] at htidy
        rw [htidy] at hupdate
        rw [hupdate] at hlocal
        rw [Driver.tick_of_not_hasStopped m w hstatus hwhole.script hstopped, Script.update,
          hupdate]
        refine ⟨⟨h, _, ⟨rfl, hwhole.able, hwhole.id, hwhole.live, hlocal.sound, ?_⟩⟩,
          [], by simp, (List.append_nil _).symm⟩
        rw [hlocal.ids]
        exact hwhole.nodup
  · rw [Driver.tick_of_not_running m w hstatus]
    exact hwhole.rest fun n hn =>
      Node.advance_of_not_active m w (hwhole.nodes_rest hstatus n hn)

end Whole

/-! ### The driver of one child -/

section Part

variable {d : Driver} {root : Node}

theorem Part.rest (hpart : Part d root) {turn : Node → Node × List Effect}
    (hturn : turn root = (root, [])) : PartTurn turn root (d, []) := by
  refine ⟨?_, [], by simp, by rw [hturn]; rfl⟩
  rwa [hturn]

theorem Part.close (hpart : Part d root) (status : Status) (hclosed : status ≠ .running)
    (closing : Happening) (hclosing : closing.node = none) :
    PartTurn Node.finish root
      ({ d with script := some (Script.tree root).finish.1, status := status },
        (Script.tree root).finish.2 ++ [.event closing]) := by
  refine ⟨⟨rfl, ?_, (Node.local_finish hpart.sound).sound⟩, [closing], by simpa using hclosing, ?_⟩
  · rw [Node.finish_not_active]
    exact (show (status == .running) = false by simpa using hclosed).symm
  · rw [Node.happenings_append]
    rfl

theorem Part.root_rest (hpart : Part d root) (hstatus : d.status ≠ .running) :
    root.header.active = false := by
  rw [hpart.active]
  simpa [Driver.isRunning] using hstatus

theorem Part.stop (hpart : Part d root) : PartTurn Node.finish root d.stop := by
  by_cases hstatus : d.status = .running
  · rw [Driver.stop_of_running hstatus hpart.script]
    exact hpart.close .stopped (by simp) .stopped rfl
  · rw [Driver.stop_of_not_running hstatus]
    exact hpart.rest (Node.finish_of_not_active (hpart.root_rest hstatus))

theorem Part.tick (hpart : Part d root) (m : Moment) (w : Surroundings) :
    PartTurn (Node.advance m w) root (d.tick m w) := by
  by_cases hstatus : d.status = .running
  · have hactive : root.header.active = true := by
      rw [hpart.active]
      exact d.isRunning_iff.mpr hstatus
    have hadvance := Node.advance_of_active m w hactive
    cases hstop : root.hasStopped w with
    | true =>
        rw [Node.visit_of_hasStopped m w hstop] at hadvance
        rw [Driver.tick_of_hasStopped m w hstatus hpart.script hstop]
        have hclose : PartTurn Node.finish root _ := hpart.close
          (if w.active then .finished else .stopped) (by cases w.active <;> simp)
          (if w.active then .finished else .stopped) (by cases w.active <;> rfl)
        obtain ⟨hafter, hevents⟩ := hclose
        refine ⟨?_, ?_⟩
        · rw [hadvance]
          exact hafter
        · rw [hadvance]
          exact hevents
    | false =>
        rw [Node.visit_of_not_hasStopped m w hstop] at hadvance
        have hlocal := (hpart.sound.operable.update (m := m) (w := w) hactive).isLocal
        rw [Driver.tick_of_not_hasStopped m w hstatus hpart.script hstop]
        refine ⟨?_, [], by simp, ?_⟩
        · rw [hadvance]
          refine ⟨rfl, ?_, hlocal.sound⟩
          rw [Node.update_header]
          exact hpart.active
        · rw [hadvance, List.append_nil]
          rfl
  · rw [Driver.tick_of_not_running m w hstatus]
    exact hpart.rest (Node.advance_of_not_active m w (hpart.root_rest hstatus))

end Part

/-! ### The two together -/

/-- Where the numbers of a child begin, after those of the root and of the children before it. -/
def offset (before : List Node) : Nat := 1 + Node.sizeAll before

theorem offset_pos (before : List Node) : 0 < offset before := by
  rw [offset]
  omega

section Matched

variable (before after : List Node) (c : Node)

/-- The child stands in the parallel as it stands on its own, apart from its numbers. -/
structure Twin (whole part : Driver) (left right : List Node) (root : Node) : Prop where
  whole : ∃ h running, Whole whole h running (left ++ root.renumber (· + offset before) :: right)
  part : Part part root
  ids : root.ids = List.range' 0 c.size
  left : left.length = before.length
  right : right.length = after.length

/-- What two drivers owe each other: neither has been activated, or the child stands in both. -/
inductive Matched (whole part : Driver) : Prop
  | unused (hwhole : whole.status = .idle) (hpart : part.status = .idle)
  | twin (left right : List Node) (root : Node)
      (htwin : Twin before after c whole part left right root)

structure MatchedAfter (whole part : Driver × List Effect) : Prop where
  drivers : Matched before after c whole.1 part.1
  echoes : Echoes (offset before) c.size whole.2 part.2

end Matched

section Twin

variable {before after left right : List Node} {c root : Node} {size k : Nat}

theorem ids_raised (hroot : root.ids = List.range' 0 size) :
    (root.renumber (· + k)).ids = List.range' k size := by
  have hcomm : (fun i => i + k) = fun i => k + i := funext fun i => Nat.add_comm i k
  rw [Node.ids_renumber, hroot, hcomm, List.map_add_range', Nat.add_zero]

/-- The turn of a child in the parallel is its turn on its own. -/
theorem echoes_of_turns {turn : Node → Node × List Effect} {whole part : List Effect}
    {own own' : List Happening} (hk : 0 < k)
    (hlocal : ∀ n ∈ left ++ root.renumber (· + k) :: right, Node.Local n (turn n))
    (hroot : Node.Local root (turn root))
    (hnodup : ((left ++ root.renumber (· + k) :: right).flatMap Node.ids).Nodup)
    (hids : root.ids = List.range' 0 size)
    (hturn : turn (root.renumber (· + k)) = Node.renumberResult (· + k) (turn root))
    (hown : ∀ h ∈ own, h.node = none ∨ h.node = some 0) (hown' : ∀ h ∈ own', h.node = none)
    (hwhole : Effect.happenings whole =
      Effect.happenings ((left ++ root.renumber (· + k) :: right).flatMap fun n => (turn n).2) ++
        own)
    (hpart : Effect.happenings part = Effect.happenings (turn root).2 ++ own') :
    Echoes k size whole part := by
  have hfilter := Node.filter_within hlocal hnodup (ids_raised hids)
  have hne : k ≠ 0 := by omega
  have hownNone : own.filter (Happening.within k size) = [] := by
    rw [List.filter_eq_nil_iff]
    intro h hh
    rcases hown h hh with hnode | hnode
    · simp [Happening.within, hnode]
    · simp [Happening.within, hnode, hne]
  have hownNone' : own'.filter (·.node.isSome) = [] := by
    rw [List.filter_eq_nil_iff]
    intro h hh
    simp [hown' h hh]
  have hturns : (Effect.happenings (turn root).2).filter (·.node.isSome) =
      Effect.happenings (turn root).2 := by
    rw [List.filter_eq_self]
    intro h hh
    obtain ⟨i, _, hnode⟩ := hroot.about h hh
    simp [hnode]
  rw [Echoes, hwhole, hpart, List.filter_append, List.filter_append, hfilter, hownNone, hownNone',
    hturns, List.append_nil, List.append_nil, hturn, Node.renumberResult,
    Effect.happenings_renumber]

theorem Twin.turn {whole part : Driver} {result result' : Driver × List Effect}
    {turn : Node → Node × List Effect} (htwin : Twin before after c whole part left right root)
    (hlocal : ∀ n : Node, n.Sound → Node.Local n (turn n))
    (hturn : turn (root.renumber (· + offset before)) =
      Node.renumberResult (· + offset before) (turn root))
    (hwhole : WholeTurn turn (left ++ root.renumber (· + offset before) :: right) result)
    (hpart : PartTurn turn root result') : MatchedAfter before after c result result' := by
  obtain ⟨⟨h, running, hstanding⟩, hroot, hids, hleft, hright⟩ := htwin
  obtain ⟨⟨h', running', hafter⟩, own, hown, hevents⟩ := hwhole
  obtain ⟨hrootAfter, own', hown', hevents'⟩ := hpart
  have hlocalRoot := hlocal root hroot.sound
  have hmap : ((left ++ root.renumber (· + offset before) :: right).map fun n => (turn n).1) =
      (left.map fun n => (turn n).1) ++
        (turn root).1.renumber (· + offset before) :: right.map fun n => (turn n).1 := by
    rw [List.map_append, List.map_cons, hturn]
    rfl
  rw [hmap] at hafter
  refine ⟨.twin (left.map fun n => (turn n).1) (right.map fun n => (turn n).1) (turn root).1
    ⟨⟨h', running', hafter⟩, hrootAfter, ?_, ?_, ?_⟩, ?_⟩
  · rw [hlocalRoot.ids, hids]
  · rw [List.length_map, hleft]
  · rw [List.length_map, hright]
  · have hturns : ∀ n ∈ left ++ root.renumber (· + offset before) :: right,
        Node.Local n (turn n) := fun n hn => hlocal n (hstanding.sound.children n hn)
    exact echoes_of_turns (offset_pos before) hturns hlocalRoot hstanding.nodes_nodup.2 hids hturn
      hown hown' hevents hevents'

theorem Matched.stop {whole part : Driver} (h : Matched before after c whole part) :
    MatchedAfter before after c whole.stop part.stop := by
  cases h with
  | unused hwhole hpart =>
      rw [Driver.stop_of_not_running (by simp [hwhole]),
        Driver.stop_of_not_running (by simp [hpart])]
      exact ⟨.unused hwhole hpart, rfl⟩
  | twin left right root htwin =>
      obtain ⟨h, running, hwhole⟩ := htwin.whole
      exact htwin.turn (fun n hn => Node.local_finish hn) (root.finish_renumber _) hwhole.stop
        htwin.part.stop

theorem Matched.tick {whole part : Driver} (h : Matched before after c whole part) (m : Moment)
    (w : Surroundings) : MatchedAfter before after c (whole.tick m w) (part.tick m w) := by
  cases h with
  | unused hwhole hpart =>
      rw [Driver.tick_of_not_running m w (by simp [hwhole]),
        Driver.tick_of_not_running m w (by simp [hpart])]
      exact ⟨.unused hwhole hpart, rfl⟩
  | twin left right root htwin =>
      obtain ⟨h, running, hwhole⟩ := htwin.whole
      exact htwin.turn (fun n hn => Node.local_advance hn m w) (Node.advance_renumber m w _ root)
        (hwhole.tick m w) (htwin.part.tick m w)

end Twin

/-! ### Activation -/

section Activation

variable (w : Surroundings) {h : Header} {before after : List Node} {c : Node} {running : List Bool}

theorem initAll_split (before after : List Node) (c : Node) :
    Node.initAll w 1 (before ++ c :: after) =
      ((Node.initAll w 1 before).1 ++ (c.init w 0).1.renumber (· + offset before) ::
          (Node.initAll w (offset before + c.size) after).1,
        (Node.initAll w 1 before).2 ++ ((c.init w 0).2.map (NodeFault.renumber (· + offset before)) ++
          (Node.initAll w (offset before + c.size) after).2)) := by
  have hinit := c.init_raise w 0 (offset before)
  rw [Nat.zero_add] at hinit
  have hoffset : 1 + Node.sizeAll before = offset before := rfl
  rw [Node.initAll_append, Node.initAll_cons, hoffset, hinit]
  rfl

theorem filter_faults_outside (offset size : Nat) {faults : List NodeFault}
    (houtside : ∀ f ∈ faults, f.node < offset ∨ offset + size ≤ f.node) :
    (faults.map fun f => Happening.faulted f.node).filter (Happening.within offset size) = [] := by
  rw [List.filter_eq_nil_iff]
  intro x hx
  obtain ⟨f, hf, rfl⟩ := List.mem_map.mp hx
  have hrange := houtside f hf
  simp only [Happening.within, Happening.node, Option.any_some, Bool.and_eq_true, decide_eq_true_eq]
  omega

theorem filter_faults_inside {offset size : Nat} {faults : List NodeFault}
    (hinside : ∀ f ∈ faults, offset ≤ f.node ∧ f.node < offset + size) :
    (faults.map fun f => Happening.faulted f.node).filter (Happening.within offset size) =
      faults.map fun f => Happening.faulted f.node := by
  rw [List.filter_eq_self]
  intro x hx
  obtain ⟨f, hf, rfl⟩ := List.mem_map.mp hx
  simpa [Happening.within, Happening.node] using hinside f hf

theorem echoes_faults (before after : List Node) (c : Node) :
    Echoes (offset before) c.size
      (((Node.initAll w 1 (before ++ c :: after)).2.map fun f => .faulted f.node).map .event)
      (((c.init w 0).2.map fun f => .faulted f.node).map .event) := by
  have hrange : ∀ (nodes : List Node) first, ∀ f ∈ (Node.initAll w first nodes).2,
      first ≤ f.node ∧ f.node < first + Node.sizeAll nodes :=
    fun nodes => Node.fault_range_initAll w fun n _ i => n.fault_range_init w i
  have hbefore := filter_faults_outside (offset before) c.size
    fun f hf => Or.inl (hrange before 1 f hf).2
  have hafter := filter_faults_outside (offset before) c.size
    fun f hf => Or.inr (hrange after (offset before + c.size) f hf).1
  have hown : ∀ f ∈ (c.init w 0).2.map (NodeFault.renumber (· + offset before)),
      offset before ≤ f.node ∧ f.node < offset before + c.size := by
    intro _ hraised
    obtain ⟨f, hf, rfl⟩ := List.mem_map.mp hraised
    have hrange := c.fault_range_init w 0 f hf
    simp only [NodeFault.renumber]
    omega
  have hsome : ((c.init w 0).2.map fun f => Happening.faulted f.node).filter (·.node.isSome) =
      (c.init w 0).2.map fun f => Happening.faulted f.node := by
    rw [List.filter_eq_self]
    intro x hx
    obtain ⟨f, _, rfl⟩ := List.mem_map.mp hx
    rfl
  rw [Echoes, Node.happenings_events, Node.happenings_events, hsome, initAll_split, List.map_append,
    List.map_append, List.filter_append, List.filter_append, hbefore, hafter,
    filter_faults_inside hown, List.nil_append, List.append_nil, List.map_map, List.map_map]
  rfl

theorem whole_activate (henabled : h.enabled = true) (nodes : List Node) {d : Driver}
    (hstatus : d.status ≠ .running)
    (hdefault : d.default = some (.tree (.parallel h nodes running))) :
    (∃ h running, Whole (d.activate w none).1.1 h running
        ((Node.initAll w 1 nodes).1.map fun n => (n.start w).1)) ∧
      (d.activate w none).1.2 =
        ((Node.initAll w 1 nodes).2.map fun f => .faulted f.node).map .event ++
          ([.event (.started 0)] ++ (Node.initAll w 1 nodes).1.flatMap fun n => (n.start w).2) ++
          [.event .activated] := by
  have hfound : (none <|> d.default) = some (.tree (.parallel h nodes running)) := hdefault
  have hable : (h.initialised 0 none).able = true := by
    simp [Header.able, Header.initialised, henabled]
  have hinit : (Node.parallel h nodes running).init w 0 =
      (.parallel (h.initialised 0 none) (Node.initAll w 1 nodes).1 running,
        (Node.initAll w 1 nodes).2) := by
    rw [Node.init]
  have hsound := (Node.parallel h nodes running).sound_init w 0
  have hrest := (Node.parallel h nodes running).init_not_active w 0
  have hids := (Node.parallel h nodes running).ids_init w 0
  have hstart := Node.start_parallel w _ hable (Node.initAll w 1 nodes).1 running
  rw [hinit] at hsound hrest hids
  have hlocal := Node.local_start hsound hrest w
  rw [hstart] at hlocal
  rw [Driver.activate_of_some w hstatus hfound, Script.init, hinit, Script.start, hstart]
  refine ⟨⟨_, _, ⟨rfl, hable, rfl, hable, hlocal.sound, ?_⟩⟩, ?_⟩
  · rw [hlocal.ids, hids]
    exact List.nodup_range'
  · rw [Report.happenings]
    rfl

theorem part_activate (c : Node) {d : Driver} (hstatus : d.status ≠ .running)
    (hdefault : d.default = some (.tree c)) :
    Part (d.activate w none).1.1 ((c.init w 0).1.start w).1 ∧
      (d.activate w none).1.2 = ((c.init w 0).2.map fun f => .faulted f.node).map .event ++
        ((c.init w 0).1.start w).2 ++ [.event .activated] := by
  have hfound : (none <|> d.default) = some (.tree c) := hdefault
  have hlocal := Node.local_start (c.sound_init w 0) (by simp) w
  rw [Driver.activate_of_some w hstatus hfound]
  refine ⟨⟨rfl, ?_, hlocal.sound⟩, rfl⟩
  rw [Node.start_header]
  rfl

theorem matched_begin (henabled : h.enabled = true) {whole part : Driver}
    (hwhole : whole.status ≠ .running) (hpart : part.status ≠ .running)
    (hdefault : whole.default = some (.tree (.parallel h (before ++ c :: after) running)))
    (hdefault' : part.default = some (.tree c)) :
    MatchedAfter before after c (whole.activate w none).1 (part.activate w none).1 := by
  obtain ⟨⟨h', running', hafter⟩, heffects⟩ := whole_activate w henabled _ hwhole hdefault
  obtain ⟨hroot, heffects'⟩ := part_activate w c hpart hdefault'
  have hprepared : ∀ n ∈ (Node.initAll w 1 (before ++ c :: after)).1,
      n.Sound ∧ n.header.active = false := by
    intro n hn
    obtain ⟨k, _, i, rfl⟩ := Node.mem_initAll w hn
    exact ⟨k.sound_init w i, by simp⟩
  have hnodup : ((Node.initAll w 1 (before ++ c :: after)).1.flatMap Node.ids).Nodup := by
    rw [Node.ids_initAll w fun n _ i => n.ids_init w i]
    exact List.nodup_range'
  rw [initAll_split] at hafter hprepared hnodup
  have hlocal := Node.local_start (c.sound_init w 0) (by simp) w
  have hids := c.ids_init w 0
  refine ⟨.twin ((Node.initAll w 1 before).1.map fun n => (n.start w).1)
    ((Node.initAll w (offset before + c.size) after).1.map fun n => (n.start w).1)
    ((c.init w 0).1.start w).1 ⟨⟨h', running', ?_⟩, hroot, ?_, ?_, ?_⟩, ?_⟩
  · rw [List.map_append, List.map_cons, Node.start_renumber] at hafter
    exact hafter
  · rw [hlocal.ids, hids]
  · rw [List.length_map, Node.initAll_length]
  · rw [List.length_map, Node.initAll_length]
  · have hstarts : Echoes (offset before) c.size
        ((Node.initAll w 1 (before ++ c :: after)).1.flatMap fun n => (n.start w).2)
        ((c.init w 0).1.start w).2 := by
      rw [initAll_split]
      have hturns : ∀ n ∈ (Node.initAll w 1 before).1 ++
          (c.init w 0).1.renumber (· + offset before) ::
            (Node.initAll w (offset before + c.size) after).1, Node.Local n (n.start w) :=
        fun n hn => Node.local_start (hprepared n hn).1 (hprepared n hn).2 w
      have hown : ∀ x ∈ ([] : List Happening), x.node = none ∨ x.node = some 0 := by simp
      have hown' : ∀ x ∈ ([] : List Happening), x.node = none := by simp
      exact echoes_of_turns (offset_pos before) hturns hlocal hnodup hids
        (Node.start_renumber _ w _) hown hown' (List.append_nil _).symm (List.append_nil _).symm
    have hstart : Echoes (offset before) c.size [.event (.started 0)] [] := by
      have hne : offset before ≠ 0 := (offset_pos before).ne'
      simp [Echoes, Effect.happenings, Effect.happening?, Happening.within, Happening.node, hne]
    have hactivated : Echoes (offset before) c.size [.event .activated] [.event .activated] := rfl
    rw [heffects, heffects']
    exact ((echoes_faults w before after c).append (hstart.append hstarts)).append hactivated

theorem Matched.activate (henabled : h.enabled = true) {whole part : Driver}
    (hdefault : whole.default = some (.tree (.parallel h (before ++ c :: after) running)))
    (hdefault' : part.default = some (.tree c)) (hmatched : Matched before after c whole part) :
    MatchedAfter before after c (whole.activate w none).1 (part.activate w none).1 := by
  obtain ⟨_, hclosing⟩ := hmatched.stop
  obtain ⟨hdrivers, hopening⟩ := matched_begin w henabled whole.stop_status_ne_running
    part.stop_status_ne_running (whole.stop_default.trans hdefault)
    (part.stop_default.trans hdefault')
  rw [Driver.activate_eq w none whole, Driver.activate_eq w none part]
  exact ⟨hdrivers, hclosing.append hopening⟩

theorem Matched.call (henabled : h.enabled = true) {whole part : Driver}
    (hdefault : whole.default = some (.tree (.parallel h (before ++ c :: after) running)))
    (hdefault' : part.default = some (.tree c)) (hmatched : Matched before after c whole part)
    (m : Moment) {call : Driver.Call} (hcall : call.Plain) :
    MatchedAfter before after c (whole.call m w call) (part.call m w call) := by
  cases call with
  | activate override =>
      cases override with
      | none => exact hmatched.activate w henabled hdefault hdefault'
      | some script => exact absurd rfl (hcall script)
  | tick => exact hmatched.tick m w
  | stop => exact hmatched.stop

end Activation

/-! ### Whole sessions -/

section Sessions

variable {h : Header} {before after : List Node} {c : Node} {running : List Bool}

/-- The trace of the parallel tells of a child what the trace of the child alone tells. -/
def Retold (offset size : Nat) (whole part : List Event) : Prop :=
  whole.filter (Event.within offset size) =
    (part.filter (·.node.isSome)).map (Event.shift offset)

theorem Echoes.events {offset size : Nat} {whole part : List Effect}
    (h : Echoes offset size whole part) (m : Moment) :
    Retold offset size (Entity.events m whole) (Entity.events m part) := by
  have hwithin : Event.within offset size ∘ (Happening.at · m.tick) =
      Happening.within offset size := rfl
  have hnode : (fun e : Event => e.node.isSome) ∘ (Happening.at · m.tick) =
      fun h => h.node.isSome := rfl
  have hshift : Event.shift offset ∘ (Happening.at · m.tick) =
      (Happening.at · m.tick) ∘ Happening.renumber (· + offset) := by
    funext h
    cases h <;> rfl
  rw [Retold, Entity.events, Entity.events, List.filter_map, List.filter_map, List.map_map, hwithin,
    hnode, hshift, h, List.map_map]

/-- A session with the parallel and one with a child of it, called alike so far. -/
structure Abreast (h : Header) (running : List Bool) (before after : List Node) (c : Node)
    (whole part : Session) : Prop where
  wholeDefault :
    whole.driver.default = some (.tree (.parallel h (before ++ c :: after) running))
  partDefault : part.driver.default = some (.tree c)
  drivers : Matched before after c whole.driver part.driver
  trace : Retold (offset before) c.size whole.trace part.trace

theorem Abreast.beat (henabled : h.enabled = true) {whole part : Session}
    (habreast : Abreast h running before after c whole part) {b : Beat} (hcall : b.call.Plain) :
    Abreast h running before after c (whole.beat b) (part.beat b) := by
  obtain ⟨hdrivers, hechoes⟩ := habreast.drivers.call b.surroundings henabled
    habreast.wholeDefault habreast.partDefault b.moment hcall
  refine ⟨?_, ?_, hdrivers, ?_⟩
  · exact (Driver.call_default _ _ _ _).trans habreast.wholeDefault
  · exact (Driver.call_default _ _ _ _).trans habreast.partDefault
  · have hevents := hechoes.events b.moment
    rw [Retold] at hevents
    rw [Retold, Session.beat_trace, Session.beat_trace, List.filter_append, List.filter_append,
      List.map_append, habreast.trace, hevents]

theorem Abreast.run (henabled : h.enabled = true) {whole part : Session}
    (habreast : Abreast h running before after c whole part) {beats : List Beat}
    (hcalls : ∀ b ∈ beats, b.call.Plain) :
    Abreast h running before after c (whole.run beats) (part.run beats) := by
  have hbeat : ∀ whole part (b : Beat), Abreast h running before after c whole part →
      b.call.Plain → Abreast h running before after c (whole.beat b) (part.beat b) :=
    fun _ _ _ habreast hcall => habreast.beat henabled hcall
  exact Session.run_relates hbeat habreast hcalls

end Sessions

/-! ### The end -/

/-- Since its activation, nothing but its own script has ended the driver. -/
def Undisturbed (d : Driver) : Prop :=
  (d.status = .running ∧ ∃ script, d.script = some script) ∨ d.status = .finished

theorem Undisturbed.activate {d : Driver} {script : Script} (hdefault : d.default = some script)
    (w : Surroundings) : Undisturbed (d.activate w none).1.1 := by
  have hfound : (none <|> d.stop.1.default) = some script := d.stop_default.trans hdefault
  rw [Driver.activate_eq, Driver.activate_of_some w d.stop_status_ne_running hfound]
  exact Or.inl ⟨rfl, _, rfl⟩

theorem Undisturbed.tick {d : Driver} (h : Undisturbed d) (m : Moment) {w : Surroundings}
    (hw : w.active = true) : Undisturbed (d.tick m w).1 := by
  rcases h with ⟨hrunning, script, hscript⟩ | hfinished
  · cases hstop : script.hasStopped w with
    | true =>
        rw [Driver.tick_of_hasStopped m w hrunning hscript hstop, hw]
        exact Or.inr rfl
    | false =>
        rw [Driver.tick_of_not_hasStopped m w hrunning hscript hstop]
        exact Or.inl ⟨hrunning, _, rfl⟩
  · rw [Driver.tick_of_not_running m w (by simp [hfinished])]
    exact Or.inr hfinished

/-- A beat that lets a running script go on. -/
def Calm (b : Beat) : Prop := b.call = .tick ∧ b.surroundings.active = true

theorem Undisturbed.run {s : Session} (h : Undisturbed s.driver) {ticks : List Beat}
    (hcalm : ∀ b ∈ ticks, Calm b) : Undisturbed (s.run ticks).driver := by
  have hbeat : ∀ (s : Session) b, Undisturbed s.driver → Calm b →
      Undisturbed (s.beat b).driver := by
    intro s b h ⟨hcall, hactive⟩
    rw [Session.beat_driver, hcall]
    exact h.tick b.moment hactive
  exact Session.run_keeps hbeat h hcalm

theorem undisturbed_of_run {s : Session} {script : Script}
    (hdefault : s.driver.default = some script) (history : List Beat) {opening : Beat}
    {ticks : List Beat} (hopening : opening.call = .activate none) (hcalm : ∀ b ∈ ticks, Calm b) :
    Undisturbed (s.run (history ++ opening :: ticks)).driver := by
  have hbegun : Undisturbed ((s.run history).beat opening).driver := by
    rw [Session.beat_driver, hopening]
    exact Undisturbed.activate ((s.run_default history).trans hdefault) _
  rw [Session.run_append]
  exact hbegun.run hcalm

theorem Undisturbed.finished_iff {d : Driver} (h : Undisturbed d) :
    d.status = .finished ↔ d.isRunning = false := by
  rcases h with ⟨hrunning, _⟩ | hfinished
  · simp [Driver.isRunning, hrunning]
  · simp [Driver.isRunning, hfinished]

section Ending

variable {h : Header} {running : List Bool} {children nodes : List Node} {whole : Driver}
  {part : Nat → Node → Driver}

theorem Whole.tick_finishes (hwhole : Whole whole h running nodes) (hgoes : Undisturbed whole)
    (m : Moment) {w : Surroundings} (hw : w.active = true) :
    (whole.tick m w).1.status = .finished ↔ ∀ n ∈ nodes, n.header.active = false := by
  rcases hgoes with ⟨hrunning, _⟩ | hfinished
  · have hstopped := hwhole.hasStopped hrunning w
    rw [hw, Bool.not_true, Bool.false_or] at hstopped
    cases hrest : nodes.all fun n => !n.header.active with
    | true =>
        rw [hrest] at hstopped
        rw [Driver.tick_of_hasStopped m w hrunning hwhole.script hstopped, hw]
        exact iff_of_true rfl (by simpa using hrest)
    | false =>
        rw [hrest] at hstopped
        rw [Driver.tick_of_not_hasStopped m w hrunning hwhole.script hstopped]
        refine iff_of_false (by simp [hrunning]) fun hall => ?_
        have htrue : nodes.all (fun n => !n.header.active) = true := by simpa using hall
        rw [hrest] at htrue
        contradiction
  · rw [Driver.tick_of_not_running m w (by simp [hfinished])]
    exact iff_of_true hfinished (hwhole.nodes_rest (by simp [hfinished]))

/-- What the driver of a parallel knows of a child is what the driver of the child knows. -/
theorem Matched.child {i : Nat} {c : Node} {d : Driver} (hi : children[i]? = some c)
    (hmatched : Matched (children.take i) (children.drop (i + 1)) c whole d) :
    (whole.status = .idle ∧ d.status = .idle) ∨
      ∃ h running nodes root, Whole whole h running nodes ∧ nodes.length = children.length ∧
        Part d root ∧ nodes[i]? = some (root.renumber (· + offset (children.take i))) := by
  obtain ⟨hbound, rfl⟩ := List.getElem?_eq_some_iff.mp hi
  cases hmatched with
  | unused hidle hidle' => exact Or.inl ⟨hidle, hidle'⟩
  | twin left right root htwin =>
      obtain ⟨⟨h, running, hwhole⟩, hpart, _, hleft, hright⟩ := htwin
      rw [List.length_take, Nat.min_eq_left (by omega)] at hleft
      rw [List.length_drop] at hright
      refine Or.inr ⟨h, running, _, root, hwhole, ?_, hpart, ?_⟩
      · rw [List.length_append, List.length_cons]
        omega
      · rw [List.getElem?_append_right (by omega), hleft, Nat.sub_self]
        rfl

/-- The driver of the parallel finishes in the tick after those of all its children have. -/
theorem finished_iff (hne : children ≠ [])
    (hmatched : ∀ i c, children[i]? = some c →
      Matched (children.take i) (children.drop (i + 1)) c whole (part i c))
    (hwhole : Undisturbed whole) (hparts : ∀ i c, children[i]? = some c → Undisturbed (part i c))
    (m : Moment) {w : Surroundings} (hw : w.active = true) :
    (whole.tick m w).1.status = .finished ↔
      ∀ i c, children[i]? = some c → (part i c).status = .finished := by
  have hused : ∀ d : Driver, ¬(whole.status = .idle ∧ d.status = .idle) := by
    rintro d ⟨hidle, _⟩
    rcases hwhole with ⟨hrunning, _⟩ | hfinished <;> simp_all
  obtain ⟨first, rest, rfl⟩ := List.exists_cons_of_ne_nil hne
  obtain ⟨h, running, nodes, _, hstanding, hlength, _⟩ :=
    ((hmatched 0 first rfl).child rfl).resolve_left (hused _)
  have hchild : ∀ i c, (first :: rest)[i]? = some c →
      ∃ n, nodes[i]? = some n ∧ n.header.active = (part i c).isRunning := by
    intro i c hi
    obtain ⟨_, _, nodes', root, hstanding', _, hpart, hnode⟩ :=
      ((hmatched i c hi).child hi).resolve_left (hused _)
    -- The driver runs one parallel, so the driver of every child speaks of the same nodes.
    have hnodes : nodes' = nodes := by
      have hscript := hstanding'.script.symm.trans hstanding.script
      simp only [Option.some.injEq, Script.tree.injEq, Node.parallel.injEq] at hscript
      exact hscript.2.1
    rw [hnodes] at hnode
    refine ⟨_, hnode, ?_⟩
    rw [← hpart.active, Node.renumber_header]
    rfl
  rw [hstanding.tick_finishes hwhole m hw]
  constructor
  · intro hrest i c hi
    obtain ⟨n, hn, hactive⟩ := hchild i c hi
    rw [(hparts i c hi).finished_iff, ← hactive]
    exact hrest n (List.mem_of_getElem? hn)
  · intro hall n hn
    obtain ⟨i, hbound, rfl⟩ := List.mem_iff_getElem.mp hn
    have hi : (first :: rest)[i]? = some (first :: rest)[i] :=
      List.getElem?_eq_getElem (hlength ▸ hbound)
    obtain ⟨n, hn, hactive⟩ := hchild i _ hi
    rw [List.getElem?_eq_getElem hbound, Option.some.injEq] at hn
    rw [hn, hactive, ← (hparts i _ hi).finished_iff]
    exact hall i _ hi

theorem abreast_run (henabled : h.enabled = true) (flags : List Bool) {beats : List Beat}
    (hcalls : ∀ b ∈ beats, b.call.Plain) (intentions intentions' : Intentions) {i : Nat} {c : Node}
    (hi : children[i]? = some c) :
    Abreast h flags (children.take i) (children.drop (i + 1)) c
      ((Session.fresh (some (.tree (.parallel h children flags))) intentions).run beats)
      ((Session.fresh (some (.tree c)) intentions').run beats) := by
  obtain ⟨hbound, rfl⟩ := List.getElem?_eq_some_iff.mp hi
  have hsplit : children.take i ++ children[i] :: children.drop (i + 1) = children := by
    rw [List.getElem_cons_drop, List.take_append_drop]
  have hfresh : Abreast h flags (children.take i) (children.drop (i + 1)) children[i]
      (Session.fresh (some (.tree (.parallel h children flags))) intentions)
      (Session.fresh (some (.tree children[i])) intentions') := by
    refine ⟨?_, rfl, .unused rfl rfl, rfl⟩
    rw [hsplit]
    rfl
  exact hfresh.run henabled hcalls

theorem run_finished_iff (henabled : h.enabled = true) (flags : List Bool) (hne : children ≠ [])
    {history ticks : List Beat} {opening last : Beat}
    (hcalls : ∀ b ∈ history ++ opening :: ticks, b.call.Plain)
    (hopening : opening.call = .activate none) (hticks : ∀ b ∈ ticks, Calm b) (hlast : Calm last)
    (intentions : Intentions) (intentionsOf : Nat → Intentions) :
    ((Session.fresh (some (.tree (.parallel h children flags))) intentions).run
        (history ++ opening :: ticks ++ [last])).driver.status = .finished ↔
      ∀ i c, children[i]? = some c → ((Session.fresh (some (.tree c)) (intentionsOf i)).run
        (history ++ opening :: ticks)).driver.status = .finished := by
  let part := fun i c =>
    ((Session.fresh (some (.tree c)) (intentionsOf i)).run (history ++ opening :: ticks)).driver
  obtain ⟨hcall, hactive⟩ := hlast
  have hmatched : ∀ i c, children[i]? = some c →
      Matched (children.take i) (children.drop (i + 1)) c
        ((Session.fresh (some (.tree (.parallel h children flags))) intentions).run
          (history ++ opening :: ticks)).driver (part i c) :=
    fun i c hi => (abreast_run henabled flags hcalls intentions (intentionsOf i) hi).drivers
  have hwhole := undisturbed_of_run
    (s := Session.fresh (some (.tree (.parallel h children flags))) intentions) rfl history
    hopening hticks
  have hparts : ∀ i c, children[i]? = some c → Undisturbed (part i c) :=
    fun i c _ => undisturbed_of_run rfl history hopening hticks
  rw [Session.run_concat, Session.beat_driver, hcall]
  exact finished_iff hne hmatched hwhole hparts last.moment hactive

end Ending

end Product

open Product in
/-- **A parallel is the product of its children's drivers.** Whatever the calls, and whatever befalls
the intentions of the entities between them, a child stands in the parallel as it stands alone, and
the same happens to it in the same ticks. Once activated and left to itself, the parallel has finished
after a tick when every child alone had before it. -/
theorem parallel_is_product {h : Header} (henabled : h.enabled = true) {children : List Node}
    (hne : children ≠ []) (flags : List Bool) {beats : List Beat}
    (hcalls : ∀ b ∈ beats, ∀ script, b.call ≠ .activate (some script)) (intentions : Intentions)
    (intentionsOf : Nat → Intentions) {beatsOf : Nat → List Beat}
    (halike : ∀ i, (beatsOf i).map Beat.visible = beats.map Beat.visible) :
    let whole := (Session.fresh (some (.tree (.parallel h children flags))) intentions).run beats
    let alone := fun i c => Session.fresh (some (.tree c)) (intentionsOf i)
    (∀ i c, children[i]? = some c →
      let part := (alone i c).run (beatsOf i)
      let number := offset (children.take i)
      ((whole.driver.status = .idle ∧ part.driver.status = .idle) ∨
        ∃ root, part.driver.root = some root ∧
          whole.driver.root.bind (·.children[i]?) = some (root.renumber (· + number))) ∧
      whole.trace.filter (Event.within number c.size) =
        (part.trace.filter (·.node.isSome)).map (Event.shift number)) ∧
    (∀ history opening ticks last, beats = history ++ opening :: (ticks ++ [last]) →
      opening.call = .activate none →
      (∀ b ∈ ticks ++ [last], b.call = .tick ∧ b.surroundings.active = true) →
      (whole.driver.status = .finished ↔ ∀ i c, children[i]? = some c →
        ((alone i c).run (beatsOf i).dropLast).driver.status = .finished)) := by
  intro whole alone
  refine ⟨?_, ?_⟩
  · intro i c hi part number
    obtain ⟨hdriver, htold⟩ := Session.run_visible (s := alone i c) rfl rfl (halike i)
    obtain ⟨_, _, hdrivers, htrace⟩ :=
      abreast_run henabled flags hcalls intentions (intentionsOf i) hi
    rw [← hdriver] at hdrivers
    rw [Retold, ← htold] at htrace
    refine ⟨?_, htrace⟩
    rcases hdrivers.child hi with hidle | ⟨_, _, nodes, root, hwhole, _, hpart, hnode⟩
    · exact Or.inl hidle
    · refine Or.inr ⟨root, ?_, ?_⟩
      · rw [Driver.root, hpart.script]
      · rw [Driver.root, hwhole.script]
        exact hnode
  · intro history opening ticks last hbeats hopening hcalm
    have hconcat : beats = history ++ opening :: ticks ++ [last] := by
      rw [hbeats, List.append_assoc, List.cons_append]
    have hplain : ∀ b ∈ history ++ opening :: ticks, b.call.Plain :=
      fun b hb => hcalls b (hconcat ▸ List.mem_append_left _ hb)
    have hticks : ∀ b ∈ ticks, Calm b := fun b hb => hcalm b (List.mem_append_left _ hb)
    have hfinished := run_finished_iff henabled flags hne hplain hopening hticks
      (hcalm last (by simp)) intentions intentionsOf
    have halone : ∀ i c, ((alone i c).run (beatsOf i).dropLast).driver =
        ((alone i c).run (history ++ opening :: ticks)).driver := by
      intro i c
      have hbefore : (beatsOf i).dropLast.map Beat.visible =
          (history ++ opening :: ticks).map Beat.visible := by
        rw [List.map_dropLast, halike, ← List.map_dropLast, hconcat, List.dropLast_concat]
      exact (Session.run_visible rfl rfl hbefore).1
    rw [← hconcat] at hfinished
    refine hfinished.trans ?_
    simp only [halone]
    rfl

theorem parallel_is_product_skirmish :
    let children : List Node := [.leaf {} (.walk ⟨0⟩), .leaf {} (.attack {})]
    let beats : List Beat :=
      [⟨⟨0, 0⟩, {}, fun i => i, .activate none⟩, ⟨⟨1, 0⟩, {}, fun i => i, .tick⟩,
        ⟨⟨2, 0⟩, {}, fun i => i, .tick⟩, ⟨⟨3, 0⟩, {}, fun i => i, .tick⟩]
    let whole := (Session.fresh (some (.tree (.parallel {} children []))) .all).run beats
    let strike := (Session.fresh (some (.tree (.leaf {} (.attack {})))) .all).run beats
    whole.trace.filter (Event.within 2 1) =
        (strike.trace.filter (·.node.isSome)).map (Event.shift 2) ∧
      whole.driver.status = .finished ∧
      strike.trace.map (fun e => (e.tick, e.tag, e.node)) = [(0, "node.start", some 0),
        (0, "script.activate", none), (2, "node.end", some 0), (2, "script.finish", none)] := by
  intro children beats whole strike
  have hne : children ≠ [] := by simp [children]
  have hcalls : ∀ b ∈ beats, ∀ script, b.call ≠ .activate (some script) := by simp [beats]
  have hlaw := parallel_is_product (h := {}) rfl hne [] hcalls .all (fun _ => .all) fun _ => rfl
  obtain ⟨hchildren, hend⟩ := hlaw
  have hstrike := (hchildren 1 (.leaf {} (.attack {})) rfl).2
  refine ⟨hstrike, (hend [] _ [_, _] _ rfl rfl (by simp)).mpr ?_, rfl⟩
  intro i c hi
  rcases i with _ | _ | i
  · cases hi
    rfl
  · cases hi
    rfl
  · cases hi

end Choreo
