import Choreo.Proofs.Image
import Choreo.Proofs.Node.Relocation
import Choreo.Proofs.Script.Forest

/-!
# The order inside a parallel

Nobody can tell in which order a parallel has its children, provided that they write to different
fields: two scripts that differ only in that order do the same to their entity in every call, and what
happens to a node of the one happens to its counterpart in the other.
-/

namespace Choreo

namespace Script

/-- The node that is found by going down. The first step into a flat script leads to one of its
actions. -/
def at? : List Nat → Script → Option Node
  | path, tree root => root.at? path
  | [], flat .. => none
  | i :: path, flat actions _ => actions[i]?.bind (Node.at? path)

/-- Puts the children of the parallel at the end of the path in another order. -/
def reorder (order : List Nat) : List Nat → Script → Script
  | path, tree root => tree (root.reorder order path)
  | [], flat actions cursor => flat actions cursor
  | i :: path, flat actions cursor => flat (actions.modify i (Node.reorder order path)) cursor

/-- The number in the reordered script of the node that has this number in the script. The nodes below
the actions of a flat script have no numbers. -/
def place (order path : List Nat) : Script → Nat → Nat
  | tree root => root.place order path
  | flat .. => fun i => i

end Script

/-- The event, told of the node that has the place of its node. -/
def Event.relocate (f : Nat → Nat) (e : Event) : Event := { e with node := e.node.map f }

/-- The same happens, to the nodes at their places, and the same becomes of all records. -/
structure Relocated (f : Nat → Nat) (effects effects' : List Effect) : Prop where
  happenings : (Effect.happenings effects').Perm
    ((Effect.happenings effects).map (Happening.renumber f))
  writes : ∀ i : Intentions, Write.applyAll i (Effect.writes effects') =
    Write.applyAll i (Effect.writes effects)

namespace Relocated

variable {f : Nat → Nat} {effects effects' more more' : List Effect}

theorem writes_renumber (f : Nat → Nat) (effects : List Effect) :
    Effect.writes (effects.map (Effect.renumber f)) = Effect.writes effects := by
  rw [Effect.writes, Effect.writes, List.filterMap_map]
  refine List.filterMap_congr fun e _ => ?_
  cases e <;> rfl

theorem of_alike (h : Alike effects effects') :
    Relocated f effects (effects'.map (Effect.renumber f)) := by
  refine ⟨?_, fun i => ?_⟩
  · rw [Effect.happenings_renumber]
    exact h.happenings.symm.map _
  · rw [writes_renumber, h.writes]

theorem append (h : Relocated f effects effects') (hmore : Relocated f more more') :
    Relocated f (effects ++ more) (effects' ++ more') := by
  refine ⟨?_, fun i => ?_⟩
  · rw [Node.happenings_append, Node.happenings_append, List.map_append]
    exact h.happenings.append hmore.happenings
  · rw [Effect.writes_append, Effect.writes_append, Write.applyAll_append, Write.applyAll_append,
      h.writes, hmore.writes]

/-- What happens to no node is told as it is. -/
theorem event {h : Happening} (hnode : h.node = none) : Relocated f [.event h] [.event h] := by
  refine ⟨?_, fun _ => rfl⟩
  cases h with
  | activated | finished | stopped => exact .refl _
  | _ => cases hnode

theorem events (h : Relocated f effects effects') (m : Moment) :
    (Entity.events m effects').Perm ((Entity.events m effects).map (Event.relocate f)) := by
  have hat : (·.at m.tick) ∘ Happening.renumber f = Event.relocate f ∘ (·.at m.tick) := by
    funext h
    cases h <;> rfl
  have hevents := h.happenings.map (·.at m.tick)
  rw [List.map_map, hat, ← List.map_map] at hevents
  exact hevents

end Relocated

/-! ### Flat scripts -/

namespace Node

variable {change : Node → Node} {n : Node}

theorem isComposite_eq (n : Node) :
    n.isComposite = decide (n.kind ∈ [Kind.sequence, .parallel, .repeating]) := by
  cases n with
  | leaf h a => cases a <;> rfl
  | _ => rfl

theorem isComposite_congr {k : Node} (h : n.kind = k.kind) : n.isComposite = k.isComposite := by
  rw [isComposite_eq, isComposite_eq, h]

/-- A change that leaves leaves alone is transparent in a flat script, where only leaves are run. -/
theorem transparent_flat (h : Inner change)
    (hleaf : ∀ n : Node, n.isComposite = false → change n = n) : Transparent Flat change where
  toInner := h
  hasStopped {n} w hflat := by
    refine h.hasStopped w fun hlive => ?_
    cases hkind : n.isComposite with
    | false => rw [hleaf n hkind]
    | true =>
        rw [(hflat hkind).2] at hlive
        cases hlive
  start {n} w hflat _ := by
    have hafter := (start_alone w hflat).2
    cases hkind : n.isComposite with
    | false =>
        have hsame := hleaf (n.start w).1 ((isComposite_congr (n.start_kind w)).trans hkind)
        rw [hleaf n hkind]
        exact .same hafter hsame.symm
    | true =>
        have hlive : n.header.opened.live = false := by
          simp only [Header.opened, Bool.and_eq_false_iff]
          exact Or.inr (by simpa using (hflat hkind).1)
        rw [h.start_of_not_live w hlive]
        exact .same hafter rfl
  update {n} m w hflat _ := by
    have hafter := (update_alone m w hflat).2
    cases hkind : n.isComposite with
    | false =>
        have hsame := hleaf (n.update m w).1 ((isComposite_congr (n.update_kind m w)).trans hkind)
        rw [hleaf n hkind]
        exact .same hafter hsame.symm
    | true =>
        rw [h.update_of_not_live m w (hflat hkind).2]
        exact .same hafter rfl
  finish {n} hflat := by
    have hafter := (finish_alone hflat).2
    cases hkind : n.isComposite with
    | false =>
        have hcomposite : n.finish.1.isComposite = false := by
          cases hactive : n.header.active with
          | false => rwa [finish_of_not_active hactive]
          | true => rwa [isComposite_congr (finish_kind hactive)]
        rw [hleaf n hkind]
        exact .same hafter (hleaf n.finish.1 hcomposite).symm
    | true =>
        rw [h.finish_of_not_live (hflat hkind).2]
        exact .same hafter rfl

variable (order path : List Nat)

theorem reorder_leaf (h : Header) (a : Leaf) : (leaf h a).reorder order path = leaf h a := by
  cases path <;> rfl

theorem reorder_isComposite (n : Node) : (n.reorder order path).isComposite = n.isComposite := by
  cases path <;> cases n <;> rfl

theorem reorder_kind (n : Node) : (n.reorder order path).kind = n.kind := by
  cases path <;> cases n <;> rfl

theorem transparent_reorder_flat : Transparent Flat (reorder order path) := by
  refine transparent_flat (transparent_reorder order path).toInner fun n hn => ?_
  obtain ⟨h, a, rfl⟩ := exists_leaf hn
  exact reorder_leaf order path h a

theorem initFlat_reorder (w : Surroundings) (id : Nat) (n : Node) :
    (n.reorder order path).initFlat w id =
      ((n.initFlat w id).1.reorder order path, (n.initFlat w id).2) := by
  have hinner := (transparent_reorder order path).toInner
  rw [initFlat, initFlat, reorder_isComposite]
  cases hkind : n.isComposite with
  | false =>
      obtain ⟨h, a, rfl⟩ := exists_leaf hkind
      rw [reorder_leaf, init]
      cases a.init w <;> exact congrArg (·, _) (reorder_leaf order path _ _).symm
  | true =>
      simp only [↓reduceIte, reject, checked, hinner.header, reorder_kind, hinner.withHeader]

theorem initFlatAll_reorder (w : Surroundings) (first i : Nat) (nodes : List Node) :
    initFlatAll w first (nodes.modify i (reorder order path)) =
      ((initFlatAll w first nodes).1.modify i (reorder order path),
        (initFlatAll w first nodes).2) := by
  induction nodes generalizing first i with
  | nil => simp [initFlatAll]
  | cons n rest ih =>
      cases i with
      | zero => rw [List.modify_zero_cons, initFlatAll, initFlatAll, initFlat_reorder,
          List.modify_zero_cons]
      | succ i => rw [List.modify_succ_cons, initFlatAll, initFlatAll, ih, List.modify_succ_cons]

end Node

/-! ### Scripts -/

namespace Script

open Node

/-- The second of two scripts that run is the first, reordered and renumbered. -/
inductive Rearranged (order path : List Nat) (f : Nat → Nat) : Script → Script → Prop
  | tree {root : Node} (h : root.Reorderable order path) :
      Rearranged order path f (tree root) (tree ((root.reorder order path).renumber f))
  | flat {i : Nat} {rest : List Nat} (hpath : path = i :: rest) (hf : ∀ i, f i = i) {actions : List Node}
      (cursor : Cursor) (hflat : ∀ n ∈ actions, n.Flat) :
      Rearranged order path f (flat actions cursor)
        (flat (actions.modify i (Node.reorder order rest)) cursor)

variable {order path : List Nat} {f : Nat → Nat} {s t : Script}

theorem renumber_identity (hf : ∀ i, f i = i) (effects : List Effect) :
    effects.map (Effect.renumber f) = effects := by
  obtain rfl : f = fun i => i := funext hf
  refine (List.map_congr_left fun e _ => ?_).trans effects.map_id
  cases e with
  | write x => rfl
  | event h => cases h <;> rfl

theorem Rearranged.hasStopped (h : Rearranged order path f s t) (w : Surroundings) :
    t.hasStopped w = s.hasStopped w := by
  cases h with
  | @tree root h =>
      change (Node.renumber f _).hasStopped w = root.hasStopped w
      rw [hasStopped_renumber, (transparent_reorder order path).hasStopped w h]
  | flat _ _ cursor _ => rfl

theorem Rearranged.start (h : Rearranged order path f s t) (hs : s.Prepared) (w : Surroundings) :
    Rearranged order path f (s.start w).1 (t.start w).1 ∧
      Relocated f (s.start w).2 (t.start w).2 := by
  cases h with
  | @tree root h =>
      have hrest : root.header.active = false := hs.rest root (by simp [forest])
      obtain ⟨hfit, hnode, halike⟩ := (transparent_reorder order path).start w h hrest
      rw [Script.start, Script.start, start_renumber, renumberResult, hnode]
      exact ⟨.tree hfit, .of_alike halike⟩
  | flat hpath hf cursor hflat =>
      exact ⟨.flat hpath hf _ hflat, .of_alike (.refl [])⟩

theorem Rearranged.update (h : Rearranged order path f s t) (hs : s.Underway) (m : Moment)
    (w : Surroundings) :
    Rearranged order path f (s.update m w).1 (t.update m w).1 ∧
      Relocated f (s.update m w).2 (t.update m w).2 := by
  cases h with
  | @tree root h =>
      obtain ⟨hfit, hnode, halike⟩ := (transparent_reorder order path).update m w h hs.standing
      rw [Script.update, Script.update, update_renumber, renumberResult, hnode]
      exact ⟨.tree hfit, .of_alike halike⟩
  | @flat i rest hpath hf actions cursor hflat =>
      obtain ⟨_, hmarks⟩ := hs.standing
      obtain ⟨⟨_, hnodes, halike⟩, hcursor⟩ := (transparent_reorder_flat order rest).walk m w
        (i := i) (fun c hc => hflat c (List.mem_of_getElem? hc)) hmarks
      have hafter : Rearranged order path f
          (.flat (walk m w cursor actions).1 (walk m w cursor actions).2.1)
          (.flat ((walk m w cursor actions).1.modify i (Node.reorder order rest))
            (walk m w cursor actions).2.1) :=
        .flat hpath hf _ (walk_alone m w hflat cursor).2
      have htold := Relocated.of_alike (f := f) halike
      rw [renumber_identity hf] at htold
      refine ⟨?_, htold⟩
      change Rearranged order path f (.flat (walk m w cursor actions).1 (walk m w cursor actions).2.1)
        (.flat (walk m w cursor _).1 (walk m w cursor _).2.1)
      rw [hcursor]
      change (walk m w cursor _).1 = _ at hnodes
      rw [hnodes]
      exact hafter

theorem Rearranged.finish (h : Rearranged order path f s t) : Relocated f s.finish.2 t.finish.2 := by
  cases h with
  | @tree root h =>
      obtain ⟨_, _, halike⟩ := (transparent_reorder order path).finish h
      rw [Script.finish, Script.finish, finish_renumber]
      exact .of_alike halike
  | @flat i rest hpath hf actions cursor hflat =>
      obtain ⟨_, _, halike⟩ := (transparent_reorder_flat order rest).finishAt (i := i)
        (fun c hc => hflat c (List.mem_of_getElem? hc)) cursor
      have htold := Relocated.of_alike (f := f) halike
      rw [renumber_identity hf] at htold
      exact htold

theorem relocated_faults {faults faults' : List NodeFault}
    (h : faults'.Perm (faults.map (NodeFault.renumber f))) :
    Relocated f ((faults.map fun fault => .faulted fault.node).map .event)
      ((faults'.map fun fault => .faulted fault.node).map .event) := by
  have hwrites : ∀ happenings : List Happening, Effect.writes (happenings.map .event) = [] := by
    simp [Effect.writes, List.filterMap_map, Function.comp_def, Effect.write?]
  refine ⟨?_, fun i => by rw [hwrites, hwrites]⟩
  rw [happenings_events, happenings_events, List.map_map]
  have hmap := h.map fun fault => Happening.faulted fault.node
  rwa [List.map_map] at hmap

/-- A parallel of the script with children that write different fields, and an order for them. -/
def Reorderable (order path : List Nat) (s : Script) : Prop :=
  ∃ h children running, s.at? path = some (.parallel h children running) ∧
    children.Pairwise Apart ∧ order.Perm (List.range children.length)

theorem Reorderable.init (h : s.Reorderable order path) (w : Surroundings) :
    Rearranged order path (s.place order path) (s.init w).1 ((s.reorder order path).init w).1 ∧
      Relocated (s.place order path) ((s.init w).2.happenings.map .event)
        (((s.reorder order path).init w).2.happenings.map .event) := by
  obtain ⟨header, children, running, hat, hapart, horder⟩ := h
  cases s with
  | tree root =>
      have hfit := reorderable_init w hat hapart horder
      refine ⟨?_, ?_⟩
      · change Rearranged order path (root.place order path) (.tree (root.init w 0).1)
          (.tree ((root.reorder order path).init w 0).1)
        rw [init_reorder w hfit]
        exact .tree hfit
      · exact relocated_faults (faults_reorder w hfit)
  | flat actions cursor =>
      cases path with
      | nil => cases hat
      | cons i path =>
          have hinit := initFlatAll_reorder order path w 0 i actions
          have hflat : ∀ n ∈ (initFlatAll w 0 actions).1, n.Flat :=
            fun n hn => (flat_of_mem_initFlatAll w hn).1
          have hfaults : (initFlatAll w 0 (actions.modify i (Node.reorder order path))).2 =
              (initFlatAll w 0 actions).2.map (NodeFault.renumber fun i => i) := by
            rw [hinit]
            exact (List.map_id _).symm
          refine ⟨?_, relocated_faults (.of_eq hfaults)⟩
          change Rearranged order (i :: path) (fun i => i) (.flat (initFlatAll w 0 actions).1 (.ready 0))
            (.flat (initFlatAll w 0 (actions.modify i (Node.reorder order path))).1 (.ready 0))
          rw [hinit]
          exact .flat rfl (fun _ => rfl) _ hflat

/-- The first script is underway, and the second is the first, reordered. -/
structure Alongside (order path : List Nat) (f : Nat → Nat) (s t : Script) : Prop where
  underway : s.Underway
  rearranged : Rearranged order path f s t

theorem Reorderable.changing (h : s.Reorderable order path) :
    Changing (Relocated (s.place order path)) (Alongside order path (s.place order path))
      (reorder order path) s fun _ => True where
  nil := .of_alike (.refl [])
  append := .append
  stopped := .event rfl
  finished := .event rfl
  activated := .event rfl
  hasStopped hst w := hst.rearranged.hasStopped w
  update hst m w := by
    obtain ⟨hnext, htold⟩ := hst.rearranged.update hst.underway m w
    exact ⟨⟨hst.underway.update.2, hnext⟩, htold⟩
  finish hst := hst.rearranged.finish
  check {w} _ := (h.init w).2
  start {w} _ := by
    have hprepared := s.prepared_init w
    obtain ⟨hstart, hopening⟩ := (h.init w).1.start hprepared w
    have hunderway : ((s.init w).1.start w).1.Underway :=
      -- The moment plays no part in a start.
      (hprepared.start (m := ⟨0, 0⟩)).2
    exact ⟨⟨hunderway, hstart⟩, hopening⟩

/-- The places are the numbers in another order. -/
theorem Reorderable.place_perm (h : s.Reorderable order path) :
    ((List.range (s.init {}).2.nodeCount).map (s.place order path)).Perm
      (List.range (s.init {}).2.nodeCount) := by
  cases s with
  | tree root =>
      obtain ⟨header, children, running, hat, hapart, horder⟩ := h
      have hrows := (rows_reorder (reorderable_init {} hat hapart horder)).map fun row => row.1.id
      rw [← ids_eq_rows, ← ids_eq_rows, ids_init, ← List.range_eq_range'] at hrows
      have hplace := map_idxOf (hrows.nodup_iff.mpr List.nodup_range)
      rw [hrows.length_eq, List.length_range] at hplace
      have hmap := hrows.symm.map (root.place order path)
      exact hmap.trans (.of_eq hplace)
  | flat actions cursor => exact .of_eq (List.map_id _)
end Script

/-! ### Sessions -/

namespace Session

structure Rearranges (script : Script) (order path : List Nat) (first second : Session) : Prop where
  driver : Driver.Changed (Script.Alongside order path (script.place order path))
    (Script.reorder order path) script first.driver second.driver
  intentions : second.intentions = first.intentions
  trace : second.trace.Perm (first.trace.map (Event.relocate (script.place order path)))

theorem Rearranges.beat {script : Script} {order path : List Nat} {first second : Session}
    (h : Rearranges script order path first second) (hscript : script.Reorderable order path)
    {b : Beat} (honly : ∀ s, b.call = .activate (some s) → s = script) :
    Rearranges script order path (first.beat b)
      (second.beat (b.withScripts (Script.reorder order path))) := by
  obtain ⟨hdriver, htold⟩ := h.driver.call hscript.changing b.moment (w := b.surroundings) trivial
    honly
  refine ⟨hdriver, ?_, ?_⟩
  · rw [beat_intentions, beat_intentions, h.intentions]
    exact htold.writes _
  · rw [beat_trace, beat_trace, List.map_append]
    exact h.trace.append (htold.events b.moment)

end Session

/-- **The order inside a parallel cannot be observed.** Let the children of a parallel anywhere in a
script write to different fields, and let a second script have them in another order. A driver of the
one and a driver of the other, under the same calls, have the same records and the same status, and the
same events happen to each node of the one and its counterpart in the other. -/
theorem parallel_order_is_not_observable (script : Script) {order path : List Nat} {h : Header}
    {children : List Node} {running : List Bool}
    (hat : script.at? path = some (.parallel h children running))
    (hapart : children.Pairwise Node.Apart) (horder : order.Perm (List.range children.length))
    {default : Option Script} (hdefault : ∀ s ∈ default, s = script) {beats : List Beat}
    (hbeats : ∀ b ∈ beats, ∀ s, b.call = .activate (some s) → s = script)
    (intentions : Intentions) :
    let first := (Session.fresh default intentions).run beats
    let second := (Session.fresh (default.map (Script.reorder order path)) intentions).run
      (beats.map (Beat.withScripts (Script.reorder order path)))
    let numbers := List.range (script.init {}).2.nodeCount
    second.intentions = first.intentions ∧ second.driver.status = first.driver.status ∧
      second.trace.Perm (first.trace.map (Event.relocate (script.place order path))) ∧
      (numbers.map (script.place order path)).Perm numbers := by
  intro first second numbers
  have hscript : script.Reorderable order path := ⟨h, children, running, hat, hapart, horder⟩
  have hrun : ∀ {s t : Session}, s.Rearranges script order path t →
      (s.run beats).Rearranges script order path
        (t.run (beats.map (Beat.withScripts (Script.reorder order path)))) := by
    induction beats with
    | nil => exact id
    | cons b rest ih =>
        intro s t hst
        have hnext := hst.beat hscript (hbeats b (by simp))
        exact ih (fun k hk => hbeats k (by simp [hk])) hnext
  have hfresh : (Session.fresh default intentions).Rearranges script order path
      (Session.fresh (default.map (Script.reorder order path)) intentions) :=
    ⟨⟨⟨rfl, by simp [Session.fresh]⟩, hdefault, rfl⟩, rfl, .refl _⟩
  obtain ⟨hdriver, hintentions, htrace⟩ := hrun hfresh
  exact ⟨hintentions, hdriver.status, htrace, hscript.place_perm⟩

/-- A strike beside a walk that is followed by a jump, in this order and in the other. -/
theorem parallel_order_is_not_observable_pounce :
    let strike : Node := .leaf {} (.attack {})
    let approach : Node := .sequence {} [.leaf {} (.walk ⟨1⟩), .leaf {} (.jump { impulse := 1 })]
      (.ready 0)
    let pounce : Script := .tree (.sequence {} [.parallel {} [strike, approach] []] (.ready 0))
    let beats : List Beat :=
      [⟨⟨0, 1⟩, {}, id, .activate none⟩, ⟨⟨1, 1⟩, {}, id, .tick⟩, ⟨⟨2, 1⟩, {}, id, .tick⟩]
    let first := (Session.fresh (some pounce) .all).run beats
    let second := (Session.fresh (some (pounce.reorder [1, 0] [0])) .all).run beats
    second.intentions = first.intentions ∧ second.driver.status = first.driver.status ∧
      second.trace.Perm (first.trace.map (Event.relocate (pounce.place [1, 0] [0]))) ∧
      (List.range 6).map (pounce.place [1, 0] [0]) = [0, 1, 5, 2, 3, 4] ∧
      first.intentions.melee = some ⟨true, .right⟩ ∧
      second.trace ≠ first.trace.map (Event.relocate (pounce.place [1, 0] [0])) := by
  intro strike approach pounce beats first second
  have hapart : [strike, approach].Pairwise Node.Apart := by
    rw [List.pairwise_pair, Node.Apart, Set.disjoint_left]
    rintro field ⟨k, hk, hkind⟩ ⟨k', hk', hkind'⟩
    obtain rfl : k = strike := by simpa [strike, Node.preorder] using hk
    have hkinds : k'.kind ∈ [Kind.sequence, .walk, .jump] := List.mem_map_of_mem (f := Node.kind) hk'
    have hstrike : Kind.attack ∈ field.writers := hkind
    cases field <;> simp_all [Intentions.Field.writers]
  have hbeats : ∀ b ∈ beats, ∀ s, b.call = .activate (some s) → s = pounce := by
    simp [beats]
  have hdefault : ∀ s ∈ some pounce, s = pounce := by simp
  have horder : [1, 0].Perm (List.range 2) := by decide
  have hat : pounce.at? [0] = some (.parallel {} [strike, approach] []) := rfl
  obtain ⟨hintentions, hstatus, htrace, _⟩ :=
    parallel_order_is_not_observable pounce hat hapart horder hdefault hbeats .all
  exact ⟨hintentions, hstatus, htrace, by decide +kernel, by decide +kernel, by decide +kernel⟩

end Choreo
