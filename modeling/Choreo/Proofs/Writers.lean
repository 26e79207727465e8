import Choreo.Proofs.Restarts
import Choreo.Proofs.Stillness
import Mathlib.Data.List.Induction

/-!
# Who writes what

Any leaf could write anything into the records of its entity. That each kind of leaf keeps to its own
fields is read off the leaves once; the rest is to tell whose turn a write belongs to. In the course of
an operation every write is made by a node that is live, and a node is live at some moment of a course
only if it was so at its beginning or is started within it, enabled and without fault.
-/

namespace Choreo

/-! ### Writes and fields -/

/-- The kinds of leaf that make such a write. -/
def Write.authors : Write → List Kind
  | velocity _ => [.moveBy, .followPath, .followBezier]
  | groundSpeed _ => [.walk]
  | jump _ => [.jump]
  | shot _ => [.singleShot]
  | bullet _ => [.barrage]
  | toss .. => [.lob]
  | strike _ => [.attack]

/-- What a script can change in the records of its entity: all but which records there are, and
whether the fire is held. -/
inductive Intentions.Field
  | velocity
  | groundSpeed
  | jumpImpulse
  | once
  | aim
  | directions
  | tossStart
  | tossDirection
  | tossSpeed
  | strikeStart
  | strikeDirection

namespace Intentions.Field

/-- The two have the same in the field. -/
def Agrees (i j : Intentions) : Field → Prop
  | velocity => i.movement.map (·.velocity) = j.movement.map (·.velocity)
  | groundSpeed => i.movement.map (·.groundSpeed) = j.movement.map (·.groundSpeed)
  | jumpImpulse => i.movement.map (·.jumpImpulse) = j.movement.map (·.jumpImpulse)
  | once => i.fire.map (·.once) = j.fire.map (·.once)
  | aim => i.fire.map (·.aim) = j.fire.map (·.aim)
  | directions => i.fire.map (·.directions) = j.fire.map (·.directions)
  | tossStart => i.throw.map (·.start) = j.throw.map (·.start)
  | tossDirection => i.throw.map (·.direction) = j.throw.map (·.direction)
  | tossSpeed => i.throw.map (·.speed) = j.throw.map (·.speed)
  | strikeStart => i.melee.map (·.start) = j.melee.map (·.start)
  | strikeDirection => i.melee.map (·.direction) = j.melee.map (·.direction)

/-- The kinds of leaf that may change the field. -/
def writers : Field → List Kind
  | velocity => [.moveBy, .followPath, .followBezier]
  | groundSpeed => [.walk]
  | jumpImpulse => [.jump]
  | once | aim => [.singleShot]
  | directions => [.barrage]
  | tossStart | tossDirection | tossSpeed => [.lob]
  | strikeStart | strikeDirection => [.attack]

theorem agrees_refl (f : Field) (i : Intentions) : f.Agrees i i := by
  cases f <;> rfl

theorem Agrees.trans {f : Field} {i j k : Intentions} (first : f.Agrees i j)
    (second : f.Agrees j k) : f.Agrees i k := by
  cases f <;> exact Eq.trans first second

theorem agrees_apply (f : Field) (i : Intentions) (x : Write) :
    f.Agrees i (x.apply i) ∨ x.authors = f.writers := by
  cases f <;> cases x <;>
    first
    | exact Or.inr rfl
    | exact Or.inl rfl
    | exact Or.inl (by simp [Agrees, Write.apply, Function.comp_def, Gunfire.requestOnce,
        Gunfire.push])

/-- A field that has changed has been written by one of its writers. -/
theorem agrees_applyAll (f : Field) (i : Intentions) (writes : List Write) :
    f.Agrees i (Write.applyAll i writes) ∨ ∃ x ∈ writes, x.authors = f.writers := by
  induction writes generalizing i with
  | nil => exact Or.inl (f.agrees_refl i)
  | cons x rest ih =>
      rcases f.agrees_apply i x with hx | hx
      · rcases ih (x.apply i) with hrest | ⟨y, hy, hauthors⟩
        · exact Or.inl (hx.trans hrest)
        · exact Or.inr ⟨y, by simp [hy], hauthors⟩
      · exact Or.inr ⟨x, by simp, hx⟩

end Intentions.Field

namespace Write

theorem applyAll_keeps {α : Type} (f : Intentions → α) (hf : ∀ i x, f (apply i x) = f i)
    (i : Intentions) (writes : List Write) : f (applyAll i writes) = f i := by
  induction writes generalizing i with
  | nil => rfl
  | cons x rest ih => exact (ih (x.apply i)).trans (hf i x)

theorem has_applyAll (i : Intentions) (writes : List Write) : (applyAll i writes).has = i.has := by
  refine applyAll_keeps Intentions.has (fun j x => ?_) i writes
  funext capability
  cases x <;> cases capability <;> simp [apply, Intentions.has]

theorem hold_applyAll (i : Intentions) (writes : List Write) :
    (applyAll i writes).fire.map (·.hold) = i.fire.map (·.hold) := by
  refine applyAll_keeps (fun j => j.fire.map (·.hold)) (fun j x => ?_) i writes
  cases x <;> simp [apply, Function.comp_def, Gunfire.requestOnce, Gunfire.push]

theorem directions_applyAll (i : Intentions) (writes : List Write) :
    ∃ more, (applyAll i writes).fire.map (·.directions) =
      i.fire.map fun fire => fire.directions ++ more := by
  induction writes generalizing i with
  | nil => exact ⟨[], by simp [applyAll]⟩
  | cons x rest ih =>
      obtain ⟨more, hmore⟩ := ih (x.apply i)
      have hrest : (applyAll i (x :: rest)).fire.map (·.directions) =
          (x.apply i).fire.map fun fire => fire.directions ++ more := hmore
      rw [hrest]
      cases x with
      | bullet direction =>
          exact ⟨direction :: more, by simp [apply, Function.comp_def, Gunfire.push]⟩
      | _ => exact ⟨more, by simp [apply, Function.comp_def, Gunfire.requestOnce]⟩

end Write

namespace Leaf

theorem kind_mem_authors_start (w : Surroundings) (a : Leaf) :
    ∀ x ∈ (a.start w).2, a.kind ∈ x.authors := by
  cases a <;> simp [start, kind, Write.authors]

theorem kind_mem_authors_finish (a : Leaf) : ∀ x ∈ a.finish, a.kind ∈ x.authors := by
  intro x hx
  rw [finish] at hx
  split at hx
  · rename_i hsteers
    obtain rfl : x = .velocity .zero := by simpa using hx
    exact a.kind_mem_of_steersVelocity hsteers
  · simp at hx

/-- A leaf that steers writes a velocity in every tick. -/
theorem update_of_steersVelocity (m : Moment) (w : Surroundings) {a : Leaf}
    (ha : a.steersVelocity = true) : ∃ v, (a.update m w).2 = [.velocity v] := by
  cases a with
  | moveBy a =>
      simp only [update, MoveBy.update]
      split
      · exact ⟨_, rfl⟩
      split
      · exact ⟨_, rfl⟩
      split <;> exact ⟨_, rfl⟩
  | followPath a =>
      simp only [update, FollowPath.update]
      split
      · exact ⟨_, rfl⟩
      split
      · exact ⟨_, rfl⟩
      split <;> exact ⟨_, rfl⟩
  | followBezier a =>
      simp only [update, FollowBezier.update]
      split
      · exact ⟨_, rfl⟩
      split <;> exact ⟨_, rfl⟩
  | _ => cases ha

theorem kind_mem_authors_update (m : Moment) (w : Surroundings) (a : Leaf) :
    ∀ x ∈ (a.update m w).2, a.kind ∈ x.authors := by
  intro x hx
  cases hsteers : a.steersVelocity with
  | true =>
      obtain ⟨v, hv⟩ := update_of_steersVelocity m w hsteers
      obtain rfl : x = .velocity v := by simpa [hv] using hx
      exact a.kind_mem_of_steersVelocity hsteers
  | false =>
      cases a with
      | moveBy a => cases hsteers
      | followPath a => cases hsteers
      | followBezier a => cases hsteers
      | wait a => simp [update] at hx
      | walk a => simp [update] at hx
      | jump a => cases h : a.requested <;> simp_all [update, Jump.update, kind, Write.authors]
      | singleShot a => cases h : a.fired <;> simp_all [update, SingleShot.update, kind, Write.authors]
      | barrage a =>
          cases h : a.isOver with
          | true => simp [update, Barrage.update, h] at hx
          | false =>
              simp only [update, Barrage.update, h] at hx
              obtain ⟨index, _, rfl⟩ := List.mem_map.mp hx
              simp [kind, Write.authors]
      | attack a => cases h : a.done <;> simp_all [update, Attack.update, kind, Write.authors]
      | lob a => cases h : a.done <;> simp_all [update, Lob.update, kind, Write.authors]

end Leaf

namespace Node

variable {m : Moment} {w : Surroundings}

theorem mem_preorder_self (n : Node) : n ∈ n.preorder := by
  rw [preorder_eq]
  exact List.mem_cons_self

theorem mem_preorder_of_mem_below {n k : Node} (hk : k ∈ n.children.flatMap preorder) :
    k ∈ n.preorder := by
  rw [preorder_eq]
  exact List.mem_cons_of_mem _ hk

/-! ### Being live within a course -/

/-- What a node keeps through every operation. -/
def role (n : Node) : Nat × Kind × Bool := (n.id, n.kind, n.header.able)

/-- The node is live at the beginning of what the effects tell, or is started within it and is then
live. -/
def LiveIn (effects : List Effect) (n : Node) : Prop :=
  n.header.live = true ∨ n.header.able = true ∧ .event (.started n.id) ∈ effects

theorem LiveIn.mono {n : Node} {effects more : List Effect} (h : n.LiveIn effects)
    (hmore : effects ⊆ more) : n.LiveIn more :=
  h.imp_right fun ⟨hable, hstarted⟩ => ⟨hable, hmore hstarted⟩

/-- Every node of the result has been there before, and is live only if that one was so or has come
live. -/
def Descends (nodes : List Node) (effects : List Effect) (result : List Node) : Prop :=
  ∀ k ∈ result.flatMap preorder, ∃ n ∈ nodes.flatMap preorder, n.role = k.role ∧
    (k.header.live = true → n.LiveIn effects)

theorem descends_refl (nodes : List Node) : Descends nodes [] nodes :=
  fun k hk => ⟨k, hk, rfl, Or.inl⟩

theorem Descends.liveIn {nodes result : List Node} {effects more : List Effect}
    (h : Descends nodes effects result) {k : Node} (hk : k ∈ result.flatMap preorder)
    (hlive : k.LiveIn more) :
    ∃ n ∈ nodes.flatMap preorder, n.role = k.role ∧ n.LiveIn (effects ++ more) := by
  obtain ⟨n, hn, hrole, hcomes⟩ := h k hk
  refine ⟨n, hn, hrole, ?_⟩
  simp only [role, Prod.mk.injEq] at hrole
  obtain ⟨hid, _, hable⟩ := hrole
  rcases hlive with hlive | ⟨hkAble, hstarted⟩
  · exact (hcomes hlive).mono (List.subset_append_left _ _)
  · exact Or.inr ⟨hable.trans hkAble, by rw [hid]; exact List.mem_append_right _ hstarted⟩

theorem Descends.trans {nodes middle result : List Node} {effects more : List Effect}
    (first : Descends nodes effects middle) (second : Descends middle more result) :
    Descends nodes (effects ++ more) result := by
  intro k hk
  obtain ⟨c, hc, hrole, hcomes⟩ := second k hk
  by_cases hlive : k.header.live = true
  · obtain ⟨n, hn, hsame, hnLive⟩ := first.liveIn hc (hcomes hlive)
    exact ⟨n, hn, hsame.trans hrole, fun _ => hnLive⟩
  · obtain ⟨n, hn, hsame, _⟩ := first c hc
    exact ⟨n, hn, hsame.trans hrole, fun hcontra => absurd hcontra hlive⟩

section Turn

variable {before after : List Node} {n : Node} {inner turn : List Effect}

theorem descends_turn {next : Node} (hrole : n.role = next.role)
    (hself : next.header.live = true → n.LiveIn turn)
    (hbelow : Descends n.children inner next.children) (hinner : inner ⊆ turn) :
    Descends (before ++ n :: after) turn (before ++ next :: after) := by
  refine forall_preorder_split.mpr ⟨?_, ?_, ?_⟩
  · exact ⟨n, mem_split.mpr (Or.inl n.mem_preorder_self), hrole, hself⟩
  · intro k hk
    obtain ⟨c, hc, hsame, hcomes⟩ := hbelow k hk
    exact ⟨c, mem_split.mpr (Or.inl (mem_preorder_of_mem_below hc)), hsame,
      fun hlive => (hcomes hlive).mono hinner⟩
  · exact fun k hk => ⟨k, mem_split.mpr (Or.inr hk), rfl, Or.inl⟩

theorem descends_start (hbelow : Descends n.children inner (n.start w).1.children) :
    Descends (before ++ n :: after)
      (.event (.started n.id) :: (n.startWrites w).map .write ++ inner)
      (before ++ (n.start w).1 :: after) := by
  refine descends_turn ?_ ?_ hbelow (List.subset_append_right _ _)
  · rw [role, role, start_kind, id, id, start_header]
    rfl
  · intro hlive
    rw [start_header] at hlive
    exact Or.inr ⟨hlive, by simp⟩

theorem descends_update (hbelow : Descends n.children inner (n.update m w).1.children) :
    Descends (before ++ n :: after) ((n.updateWrites m w).map .write ++ inner)
      (before ++ (n.update m w).1 :: after) := by
  refine descends_turn ?_ ?_ hbelow (List.subset_append_right _ _)
  · rw [role, role, update_kind, id, id, update_header]
  · intro hlive
    rw [update_header] at hlive
    exact Or.inl hlive

theorem descends_finish (hactive : n.header.active = true)
    (hbelow : Descends n.children inner n.finish.1.children) :
    Descends (before ++ n :: after)
      (n.finishWrites.map .write ++ inner ++ [.event (.ended n.id)])
      (before ++ n.finish.1 :: after) := by
  refine descends_turn ?_ ?_ hbelow fun e he => by simp [he]
  · rw [role, role, finish_kind hactive, id, id, finish_header hactive]
    rfl
  · intro hlive
    rw [finish_header hactive] at hlive
    contradiction

end Turn

theorem Course.descends {nodes result : List Node} {effects : List Effect}
    (course : Course m w nodes effects result) : Descends nodes effects result := by
  induction course with
  | done nodes => exact descends_refl nodes
  | start before after hrest _ _ ihBelow ihNext => exact (descends_start ihBelow).trans ihNext
  | update before after hactive _ _ ihBelow ihNext => exact (descends_update ihBelow).trans ihNext
  | finish before after hactive _ _ ihBelow ihNext =>
      exact (descends_finish hactive ihBelow).trans ihNext

/-! ### Whose turn a write belongs to -/

/-- One of the nodes could have made the write: its kind does so, and it is live within the effects. -/
def Attributed (nodes : List Node) (effects : List Effect) (x : Write) : Prop :=
  ∃ n ∈ nodes.flatMap preorder, n.kind ∈ x.authors ∧ n.LiveIn effects

theorem attributed_turn {before after : List Node} {n next : Node} (own : List Write)
    {inner turn outer : List Effect} {x : Write}
    (hown : x ∈ own → n.kind ∈ x.authors ∧ n.LiveIn turn)
    (hbelow : .write x ∈ inner → Attributed n.children inner x) (hinner : inner ⊆ turn)
    (hdescends : Descends (before ++ n :: after) turn (before ++ next :: after))
    (hnext : .write x ∈ outer → Attributed (before ++ next :: after) outer x)
    (hx : x ∈ own ∨ .write x ∈ inner ∨ .write x ∈ outer) :
    Attributed (before ++ n :: after) (turn ++ outer) x := by
  rcases hx with hx | hx | hx
  · obtain ⟨hkind, hlive⟩ := hown hx
    exact ⟨n, mem_split.mpr (Or.inl n.mem_preorder_self), hkind,
      hlive.mono (List.subset_append_left _ _)⟩
  · obtain ⟨c, hc, hkind, hlive⟩ := hbelow hx
    exact ⟨c, mem_split.mpr (Or.inl (mem_preorder_of_mem_below hc)), hkind,
      (hlive.mono hinner).mono (List.subset_append_left _ _)⟩
  · obtain ⟨k, hk, hkind, hlive⟩ := hnext hx
    obtain ⟨c, hc, hrole, hcomes⟩ := hdescends.liveIn hk hlive
    simp only [role, Prod.mk.injEq] at hrole
    exact ⟨c, hc, by rwa [hrole.2.1], hcomes⟩

theorem kind_mem_authors_startWrites {n : Node} {x : Write} (hx : x ∈ n.startWrites w) :
    n.kind ∈ x.authors ∧ n.header.able = true := by
  cases n with
  | leaf h a =>
      rw [startWrites] at hx
      split at hx
      · rename_i hlive
        exact ⟨a.kind_mem_authors_start w x hx, hlive⟩
      · simp at hx
  | _ => simp [startWrites] at hx

theorem kind_mem_authors_updateWrites {n : Node} {x : Write} (hx : x ∈ n.updateWrites m w) :
    n.kind ∈ x.authors ∧ n.header.live = true := by
  cases n with
  | leaf h a =>
      rw [updateWrites] at hx
      split at hx
      · rename_i hlive
        exact ⟨a.kind_mem_authors_update m w x hx, hlive⟩
      · simp at hx
  | _ => simp [updateWrites] at hx

theorem kind_mem_authors_finishWrites {n : Node} {x : Write} (hx : x ∈ n.finishWrites) :
    n.kind ∈ x.authors ∧ n.header.live = true := by
  cases n with
  | leaf h a =>
      rw [finishWrites] at hx
      split at hx
      · rename_i hlive
        exact ⟨a.kind_mem_authors_finish x hx, hlive⟩
      · simp at hx
  | _ => simp [finishWrites] at hx

theorem Course.attributed {nodes result : List Node} {effects : List Effect} {x : Write}
    (course : Course m w nodes effects result) (hx : .write x ∈ effects) :
    Attributed nodes effects x := by
  induction course with
  | done nodes => simp at hx
  | @start before after n result inner outer hrest below next ihBelow ihNext =>
      refine attributed_turn (n.startWrites w) (fun hown => ?_) ihBelow
        (List.subset_append_right _ _) (descends_start below.descends) ihNext (by simpa using hx)
      obtain ⟨hkind, hable⟩ := kind_mem_authors_startWrites hown
      exact ⟨hkind, Or.inr ⟨hable, by simp⟩⟩
  | @update before after n result inner outer hactive below next ihBelow ihNext =>
      refine attributed_turn (n.updateWrites m w) (fun hown => ?_) ihBelow
        (List.subset_append_right _ _) (descends_update below.descends) ihNext (by simpa using hx)
      obtain ⟨hkind, hlive⟩ := kind_mem_authors_updateWrites hown
      exact ⟨hkind, Or.inl hlive⟩
  | @finish before after n result inner outer hactive below next ihBelow ihNext =>
      refine attributed_turn n.finishWrites (fun hown => ?_) ihBelow
        (fun e he => by simp [he]) (descends_finish hactive below.descends) ihNext
        (by simpa using hx)
      obtain ⟨hkind, hlive⟩ := kind_mem_authors_finishWrites hown
      exact ⟨hkind, Or.inl hlive⟩

theorem Course.map_roles_eq {nodes result : List Node} {effects : List Effect}
    (course : Course m w nodes effects result) :
    (result.flatMap preorder).map role = (nodes.flatMap preorder).map role := by
  have hpreorder : result.map (fun n => n.preorder.map role) =
      nodes.map fun n => n.preorder.map role := by
    refine course.map_eq _ fun n k hkind hheader hchildren => ?_
    have hid : n.id = k.id := show n.header.closed.id = k.header.closed.id by rw [hheader]
    have hable : n.header.able = k.header.able :=
      show n.header.closed.able = k.header.closed.able by rw [hheader]
    rw [preorder_eq, preorder_eq, List.map_cons, List.map_cons, List.map_flatMap, List.map_flatMap,
      List.flatMap_def, List.flatMap_def, hchildren, role, role, hid, hkind, hable]
  rw [List.map_flatMap, List.map_flatMap, List.flatMap_def, List.flatMap_def, hpreorder]

/-- A write is made by a node that is live to begin with, or by one of the result that is started. -/
theorem Course.author {nodes result : List Node} {effects : List Effect} {x : Write}
    (course : Course m w nodes effects result) (hx : .write x ∈ effects) :
    (∃ n ∈ nodes.flatMap preorder, n.header.live = true ∧ n.kind ∈ x.authors) ∨
      ∃ n ∈ result.flatMap preorder, (n.header.able = true ∧ .event (.started n.id) ∈ effects) ∧
        n.kind ∈ x.authors := by
  obtain ⟨n, hn, hkind, hlive⟩ := course.attributed hx
  rcases hlive with hlive | ⟨hable, hstarted⟩
  · exact Or.inl ⟨n, hn, hlive, hkind⟩
  · have hrole : n.role ∈ (result.flatMap preorder).map role := by
      rw [course.map_roles_eq]
      exact List.mem_map_of_mem hn
    obtain ⟨k, hk, hsame⟩ := List.mem_map.mp hrole
    simp only [role, Prod.mk.injEq] at hsame
    obtain ⟨hid, hkindEq, hableEq⟩ := hsame
    refine Or.inr ⟨k, hk, ⟨hableEq.trans hable, ?_⟩, ?_⟩
    · rwa [hid]
    · rwa [hkindEq]

/-! ### Nodes that are off -/

/-- No operation makes the node live, and none writes anything through it or below it. -/
structure Inert (n : Node) : Prop where
  live : n.header.live = false
  start_live : ∀ w, (n.start w).1.header.live = false
  start_writes : ∀ w, Effect.writes (n.start w).2 = []
  update_writes : ∀ m w, Effect.writes (n.update m w).2 = []
  finish_writes : Effect.writes n.finish.2 = []

theorem inert_of_not_able {n : Node} (hable : n.header.able = false)
    (hlive : n.header.live = false) : n.Inert := by
  have hopened : n.header.opened.live = false := hable
  refine ⟨hlive, fun w => ?_, fun w => ?_, fun m w => ?_, ?_⟩
  · rw [start_header, hopened]
  · rw [start_of_not_live w hopened]
    rfl
  · rw [update_of_not_live m w hlive]
    rfl
  · cases hactive : n.header.active with
    | false =>
        rw [finish_of_not_active hactive]
        rfl
    | true =>
        rw [finish_of_not_live hactive hlive]
        rfl

end Node

/-! ### Scripts -/

namespace Script

open Node

variable {s : Script} {m : Moment} {w : Surroundings} {x : Write}

theorem Underway.author_update (h : s.Underway) (hx : .write x ∈ (s.update m w).2) :
    (∃ n ∈ s.forest.flatMap preorder, n.header.live = true ∧ n.kind ∈ x.authors) ∨
      ∃ n ∈ (s.update m w).1.forest.flatMap preorder,
        (n.header.able = true ∧ .event (.started n.id) ∈ (s.update m w).2) ∧ n.kind ∈ x.authors :=
  h.update.1.author hx

/-- Nothing is started in an end, so its writes are those of nodes that were live before it. -/
theorem Underway.author_finish (h : s.Underway) (hx : .write x ∈ s.finish.2) :
    ∃ n ∈ s.forest.flatMap preorder, n.header.live = true ∧ n.kind ∈ x.authors := by
  obtain ⟨hcourse, _⟩ := h.finish (m := ⟨0, 0⟩) (w := {})
  rcases hcourse.author hx with hlive | ⟨n, _, ⟨_, hstarted⟩, _⟩
  · exact hlive
  · exact absurd hstarted (s.started_not_mem_finish n.id)

theorem Prepared.author_start (h : s.Prepared) (hx : .write x ∈ (s.start w).2) :
    ∃ n ∈ (s.start w).1.forest.flatMap preorder,
      (n.header.able = true ∧ .event (.started n.id) ∈ (s.start w).2) ∧ n.kind ∈ x.authors := by
  obtain ⟨hcourse, _⟩ := h.start (m := ⟨0, 0⟩) (w := w)
  rcases hcourse.author hx with ⟨n, hn, hlive, _⟩ | hstarted
  · rw [h.not_live n hn] at hlive
    contradiction
  · exact hstarted

end Script

/-! ### Drivers -/

namespace Driver

/-- A node of one of the kinds is live at some moment of the call: it is so when the call comes, or is
started in it, enabled and without fault. -/
def LiveDuring (d : Driver) (m : Moment) (w : Surroundings) (call : Call) (kinds : List Kind) : Prop :=
  (∃ s ∈ d.script, ∃ n ∈ s.forest.flatMap Node.preorder,
    n.header.live = true ∧ n.kind ∈ kinds) ∨
  ∃ s ∈ (d.call m w call).1.script, ∃ n ∈ s.forest.flatMap Node.preorder,
    (n.header.able = true ∧ .event (.started n.id) ∈ (d.call m w call).2) ∧ n.kind ∈ kinds

/-- A driver that runs holds a script, between its start and its end. -/
def Underway (d : Driver) : Prop :=
  d.status = .running → ∃ s, d.script = some s ∧ s.Underway

variable {d : Driver} {m : Moment} {w : Surroundings} {x : Write}

theorem Underway.author_stop (h : d.Underway) (hx : .write x ∈ d.stop.2) :
    ∃ s ∈ d.script, ∃ n ∈ s.forest.flatMap Node.preorder,
      n.header.live = true ∧ n.kind ∈ x.authors := by
  by_cases hrunning : d.status = .running
  · obtain ⟨s, hscript, hunderway⟩ := h hrunning
    rw [stop_of_running hrunning hscript] at hx
    exact ⟨s, hscript, hunderway.author_finish (by simpa using hx)⟩
  · rw [stop_of_not_running hrunning] at hx
    simp at hx

theorem Underway.author_tick (h : d.Underway) (hx : .write x ∈ (d.tick m w).2) :
    d.LiveDuring m w .tick x.authors := by
  by_cases hrunning : d.status = .running
  · obtain ⟨s, hscript, hunderway⟩ := h hrunning
    cases hstop : s.hasStopped w with
    | true =>
        rw [tick_of_hasStopped m w hrunning hscript hstop] at hx
        exact Or.inl ⟨s, hscript, hunderway.author_finish (by simpa using hx)⟩
    | false =>
        have htick := tick_of_not_hasStopped m w hrunning hscript hstop
        rw [htick] at hx
        rcases hunderway.author_update hx with hlive | hstarted
        · exact Or.inl ⟨s, hscript, hlive⟩
        · refine Or.inr ?_
          rw [call, htick]
          exact ⟨_, rfl, hstarted⟩
  · rw [tick_of_not_running m w hrunning] at hx
    simp at hx

theorem author_activate (hstatus : d.status ≠ .running) {override : Option Script}
    (hx : .write x ∈ (d.activate w override).1.2) :
    ∃ s ∈ (d.activate w override).1.1.script, ∃ n ∈ s.forest.flatMap Node.preorder,
      (n.header.able = true ∧ .event (.started n.id) ∈ (d.activate w override).1.2) ∧
        n.kind ∈ x.authors := by
  cases hfound : (override <|> d.default) with
  | none =>
      rw [activate_of_none w hstatus hfound] at hx
      simp at hx
  | some script =>
      rw [activate_of_some w hstatus hfound] at hx ⊢
      obtain ⟨n, hn, ⟨hable, hstarted⟩, hkind⟩ :=
        (script.prepared_init w).author_start (by simpa using hx)
      exact ⟨_, rfl, n, hn, ⟨hable, by simp [hstarted]⟩, hkind⟩

/-- A write is made by a node that is live at some moment of the call. -/
theorem Underway.author (h : d.Underway) (call : Call) (hx : .write x ∈ (d.call m w call).2) :
    d.LiveDuring m w call x.authors := by
  cases call with
  | stop => exact Or.inl (h.author_stop hx)
  | tick => exact h.author_tick hx
  | activate override =>
      -- An activation is the stop of what still runs, and then a start.
      have hactivate := activate_eq w override d
      rw [Driver.call, hactivate] at hx
      rcases List.mem_append.mp hx with hx | hx
      · exact Or.inl (h.author_stop hx)
      · obtain ⟨s, hs, n, hn, ⟨hable, hstarted⟩, hkind⟩ :=
          author_activate d.stop_status_ne_running hx
        refine Or.inr ?_
        rw [Driver.call, hactivate]
        exact ⟨s, hs, n, hn, ⟨hable, List.mem_append_right _ hstarted⟩, hkind⟩

/-- No node of the driver's script is live unless it is active, enabled and without fault. -/
def Candid (d : Driver) : Prop :=
  ∀ s ∈ d.script, ∀ n ∈ s.forest.flatMap Node.preorder, n.header.Candid

theorem candid_of_script {s : Script} (hscript : d.script = some s)
    (hs : ∀ n ∈ s.forest.flatMap Node.preorder, n.header.Candid) : d.Candid := by
  intro t ht
  obtain rfl : s = t := Option.some.inj (hscript.symm.trans ht)
  exact hs

theorem Candid.stop (h : d.Candid) (hunderway : d.Underway) : d.stop.1.Candid := by
  by_cases hrunning : d.status = .running
  · obtain ⟨s, hscript, hs⟩ := hunderway hrunning
    obtain ⟨hcourse, _⟩ := hs.finish (m := ⟨0, 0⟩) (w := {})
    rw [stop_of_running hrunning hscript]
    exact candid_of_script rfl (Script.candid_of_course hcourse (h s hscript))
  · rwa [stop_of_not_running hrunning]

theorem Candid.tick (h : d.Candid) (hunderway : d.Underway) (m : Moment) (w : Surroundings) :
    (d.tick m w).1.Candid := by
  by_cases hrunning : d.status = .running
  · obtain ⟨s, hscript, hs⟩ := hunderway hrunning
    cases hstop : s.hasStopped w with
    | true =>
        obtain ⟨hcourse, _⟩ := hs.finish (m := m) (w := w)
        rw [tick_of_hasStopped m w hrunning hscript hstop]
        exact candid_of_script rfl (Script.candid_of_course hcourse (h s hscript))
    | false =>
        obtain ⟨hcourse, _⟩ := hs.update (m := m) (w := w)
        rw [tick_of_not_hasStopped m w hrunning hscript hstop]
        exact candid_of_script rfl (Script.candid_of_course hcourse (h s hscript))
  · rwa [tick_of_not_running m w hrunning]

theorem candid_activate (w : Surroundings) (override : Option Script) (d : Driver) :
    (d.activate w override).1.1.Candid := by
  rw [activate_eq]
  cases hfound : (override <|> d.stop.1.default) with
  | none =>
      rw [activate_of_none w d.stop_status_ne_running hfound]
      rintro _ hs
      cases hs
  | some script =>
      have hprepared := script.prepared_init w
      obtain ⟨hcourse, _⟩ := hprepared.start (m := ⟨0, 0⟩) (w := w)
      rw [activate_of_some w d.stop_status_ne_running hfound]
      refine candid_of_script rfl (Script.candid_of_course hcourse fun n hn hlive => ?_)
      rw [hprepared.not_live n hn] at hlive
      contradiction

end Driver

namespace Session

variable (default : Option Script) (intentions : Intentions)

theorem underway (beats : List Beat) : ((fresh default intentions).run beats).driver.Underway := by
  intro hrunning
  obtain ⟨s, hscript, hs, _⟩ := underway_of_running hrunning
  exact ⟨s, hscript, hs⟩

theorem candid (beats : List Beat) : ((fresh default intentions).run beats).driver.Candid := by
  induction beats using List.reverseRecOn with
  | nil =>
      intro s hs
      cases hs
  | append_singleton beats b ih =>
      have hunderway := underway default intentions beats
      rw [run_concat, beat_driver]
      cases b.call with
      | activate override => exact Driver.candid_activate b.surroundings override _
      | tick => exact ih.tick hunderway b.moment b.surroundings
      | stop => exact ih.stop hunderway

end Session

/-- **Each field has one family of writers.** Whatever a call to a driver finds in the records of the
entity, it adds and removes none of them, leaves the holding of fire alone, only appends to the list of
bullets, and changes a field only if a leaf of the kinds that write it is live at some moment of the
call. A node that is disabled or at fault is never live, and writes nothing. -/
theorem fields_have_writers (default : Option Script) (intentions : Intentions) (beats : List Beat)
    (m : Moment) (w : Surroundings) (call : Driver.Call) (before : Intentions) :
    let driver := ((Session.fresh default intentions).run beats).driver
    let after := Write.applyAll before (Effect.writes (driver.call m w call).2)
    after.has = before.has ∧
    after.fire.map (·.hold) = before.fire.map (·.hold) ∧
    (∃ more, after.fire.map (·.directions) =
      before.fire.map fun fire => fire.directions ++ more) ∧
    (∀ field : Intentions.Field, ¬ field.Agrees before after →
      driver.LiveDuring m w call field.writers) ∧
    ∀ s ∈ driver.script, ∀ n ∈ s.forest.flatMap Node.preorder,
      n.header.able = false → n.Inert := by
  intro driver after
  refine ⟨Write.has_applyAll _ _, Write.hold_applyAll _ _, Write.directions_applyAll _ _, ?_, ?_⟩
  · intro field hchanged
    obtain ⟨x, hx, hauthors⟩ := (field.agrees_applyAll before _).resolve_left hchanged
    have hwrite : .write x ∈ (driver.call m w call).2 := by
      obtain ⟨e, he, hwrite⟩ := List.mem_filterMap.mp hx
      cases e with
      | event h => cases hwrite
      | write y =>
          obtain rfl : y = x := Option.some.inj hwrite
          exact he
    rw [← hauthors]
    exact (Session.underway default intentions beats).author call hwrite
  · intro s hs n hn hable
    apply Node.inert_of_not_able hable
    by_contra hlive
    obtain ⟨_, henabled, hfault⟩ :=
      Session.candid default intentions beats s hs n hn (by simpa using hlive)
    simp [Header.able, henabled, hfault] at hable

end Choreo
