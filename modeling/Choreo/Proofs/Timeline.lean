import Choreo.Proofs.Script.Accord
import Choreo.Proofs.Node.Retouch
import Choreo.Proofs.Duration

/-!
# Timelines

When a script does what is between the script and the clock. Where an entity is, what it aims at and
what its intentions hold goes into what is written, never into how far a node has come: two entities
that are active at the same calls, and have the same capabilities when the script is checked, see the
same happenings at the same ticks.
-/

namespace Choreo

/-- Everything but the places that path followers remember. -/
def Retouch.unplaced : Retouch := { leaf := Leaf.unplaced }

def Driver.unplaced (d : Driver) : Driver :=
  { d with script := d.script.map (Script.retouch .unplaced) }

/-- Two calls that are the same on the clock: the entities need only be active together and, when a
script is checked, have the same capabilities. -/
structure Beat.Synchronous (b b' : Beat) : Prop where
  moment : b.moment = b'.moment
  call : b.call = b'.call
  active : b.surroundings.active = b'.surroundings.active
  has : ∀ override, b.call = .activate override → b.surroundings.has = b'.surroundings.has

/-! ### A check depends on the capabilities alone -/

section Check

theorem Node.initAll_congr {w w' : Surroundings} {nodes : List Node}
    (hnodes : ∀ n ∈ nodes, ∀ first, n.init w first = n.init w' first) (first : Nat) :
    initAll w first nodes = initAll w' first nodes := by
  induction nodes generalizing first with
  | nil => rfl
  | cons n rest ih =>
      rw [initAll, initAll, hnodes n (by simp), ih fun k hk => hnodes k (by simp [hk])]

variable {w w' : Surroundings} (hhas : w.has = w'.has)
include hhas

theorem Leaf.init_congr (a : Leaf) : a.init w = a.init w' := by
  have hrequire : Fault.require w = Fault.require w' := by
    funext capability
    rw [Fault.require, Fault.require, hhas]
  cases a <;> simp only [Leaf.init, MoveBy.init, FollowPath.init, FollowBezier.init, Jump.init,
    SingleShot.init, Barrage.init, Attack.init, Lob.init, Walk.init, hrequire]

theorem Node.init_congr (n : Node) (first : Nat) : n.init w first = n.init w' first := by
  induction n generalizing first with
  | node n ih =>
    cases n with
    | leaf h a => rw [init, init, a.init_congr hhas]
    | sequence h nodes cursor =>
        have hnodes : initAll w (first + 1) nodes = initAll w' (first + 1) nodes :=
          initAll_congr ih (first + 1)
        rw [init, init, hnodes]
    | parallel h nodes running =>
        have hnodes : initAll w (first + 1) nodes = initAll w' (first + 1) nodes :=
          initAll_congr ih (first + 1)
        rw [init, init, hnodes]
    | repeating h child running =>
        cases child with
        | none => rfl
        | some child => rw [init, init, ih child (by simp [children])]

theorem Script.init_congr (s : Script) : s.init w = s.init w' := by
  cases s with
  | tree root => rw [init, init, root.init_congr hhas]
  | flat actions cursor =>
      have hactions : ∀ first, Node.initFlatAll w first actions = Node.initFlatAll w' first actions := by
        induction actions with
        | nil => exact fun _ => rfl
        | cons n rest ih =>
            intro first
            rw [Node.initFlatAll, Node.initFlatAll, Node.initFlat, Node.initFlat,
              n.init_congr hhas, ih]
      rw [init, init, hactions]

end Check

/-! ### The accord of one timeline -/

namespace Accord

/-- All progress counts, and what happens is listened to. -/
def timeline : Accord where
  strict := True
  leaf _ a b := a.unplaced = b.unplaced
  heard
    | .event h => some (.event h)
    | .write _ => none

theorem listens_timeline : timeline.Listens := by
  intro e
  cases e <;> rfl

theorem hear_timeline_writes (writes : List Write) : timeline.hear (writes.map .write) = [] := by
  rw [hear, List.filterMap_map, List.filterMap_eq_nil_iff]
  exact fun _ _ => rfl

theorem steady_timeline (m : Moment) {w w' : Surroundings} (hactive : w.active = w'.active) :
    timeline.Steady m w w' where
  active := hactive
  isOver {_ a b} _ hab := by rw [← a.isOver_unplaced, ← b.isOver_unplaced, hab]
  rest _ hab := hab
  start {_ a b} _ hab := by
    have hplain : ∀ (w : Surroundings) (a : Leaf),
        (a.start w).1.unplaced = (a.unplaced.start {}).1.unplaced := by
      intro w a
      cases a <;> rfl
    refine ⟨?_, by rw [hear_timeline_writes, hear_timeline_writes]⟩
    change (a.start w).1.unplaced = (b.start w').1.unplaced
    rw [hplain w a, hplain w' b, hab]
  update {_ a b} _ hab :=
    ⟨Leaf.update_unplaced m w w' hab, by rw [hear_timeline_writes, hear_timeline_writes]⟩
  close hab := hab
  finish _ _ := by rw [hear_timeline_writes, hear_timeline_writes]

end Accord

open Accord

theorem Node.map_eq_of_forall₂ {f : Node → Node} {R : Node → Node → Prop} {nodes nodes' : List Node}
    (h : List.Forall₂ R nodes nodes') (hf : ∀ n ∈ nodes, ∀ k, R n k → f n = f k) :
    nodes.map f = nodes'.map f := by
  induction h with
  | nil => rfl
  | @cons n k rest rest' hn _ ih =>
      rw [List.map_cons, List.map_cons, hf n (by simp) k hn, ih fun n hn => hf n (by simp [hn])]

theorem Node.Like.unplaced_eq {n k : Node} (h : Node.Like timeline n k) :
    n.retouch .unplaced = k.retouch .unplaced := by
  induction n generalizing k with
  | node n ih =>
    cases h with
    | @leaf h a b own => exact congrArg (Node.leaf h) own
    | sequence record below =>
        have hnodes := map_eq_of_forall₂ (below (Or.inl trivial)) fun n hn k hlike => ih n hn hlike
        rw [retouch_sequence, retouch_sequence, hnodes, record (Or.inl trivial)]
    | parallel record below =>
        have hnodes := map_eq_of_forall₂ (below (Or.inl trivial)) fun n hn k hlike => ih n hn hlike
        rw [retouch_parallel, retouch_parallel, hnodes, record (Or.inl trivial)]
    | @repeating h child child' running running' record below =>
        have hnodes := map_eq_of_forall₂ (below (Or.inl trivial)) fun n hn k hlike => ih n hn hlike
        have hchild : child.map (Node.retouch .unplaced) = child'.map (Node.retouch .unplaced) := by
          cases child <;> cases child' <;> simp_all
        rw [retouch_repeating, retouch_repeating, hchild, record (Or.inl trivial)]

theorem Script.Like.unplaced_eq {s t : Script} (h : Script.Like timeline s t) :
    s.retouch .unplaced = t.retouch .unplaced := by
  cases h with
  | tree h => rw [retouch, retouch, h.unplaced_eq]
  | flat cursor h =>
      rw [retouch, retouch, Node.map_eq_of_forall₂ h fun n _ k hlike => hlike.unplaced_eq]

theorem Driver.Like.unplaced_eq {d e : Driver} (hdefault : d.default = e.default)
    (h : Driver.Like timeline d e) : d.unplaced = e.unplaced := by
  have hscript : d.script.map (Script.retouch .unplaced) =
      e.script.map (Script.retouch .unplaced) := by
    rcases h.held with ⟨hd, he⟩ | ⟨s, t, hd, he, hst⟩
    · rw [hd, he]
    · rw [hd, he, Option.map_some, Option.map_some, hst.unplaced_eq]
  rw [unplaced, unplaced, hdefault, hscript, h.status, h.report]

theorem Driver.Like.activate {d e : Driver} (hdefault : d.default = e.default)
    (h : Driver.Like timeline d e) {w w' : Surroundings} (hactive : w.active = w'.active)
    (hhas : w.has = w'.has) (override : Option Script) :
    LikeAfter timeline (d.activate w override).1 (e.activate w' override).1 := by
  -- The moment plays no part in an activation.
  have hA : timeline.Steady ⟨0, 0⟩ w w' := steady_timeline _ hactive
  obtain ⟨hstop, hclosing⟩ := h.stop hA
  have hopen : LikeAfter timeline (d.stop.1.activate w override).1
      (e.stop.1.activate w' override).1 := by
    have hdefault : d.stop.1.default = e.stop.1.default := by
      rw [d.stop_default, e.stop_default, hdefault]
    cases hfound : (override <|> d.stop.1.default) with
    | none =>
        have hfound' : (override <|> e.stop.1.default) = none := by rwa [← hdefault]
        rw [activate_of_none w d.stop_status_ne_running hfound,
          activate_of_none w' e.stop_status_ne_running hfound']
        exact ⟨⟨rfl, hstop.report, .none⟩, rfl⟩
    | some s =>
        have hfound' : (override <|> e.stop.1.default) = some s := by rwa [← hdefault]
        have hinit := s.init_congr hhas
        refine likeAfter_activate hA d.stop_status_ne_running e.stop_status_ne_running hfound
          hfound' ?_ (by rw [hinit])
        rw [hinit]
        exact .refl (fun _ _ => rfl) _
  rw [activate_eq w override d, activate_eq w' override e]
  refine ⟨hopen.driver, ?_⟩
  rw [hear_append, hear_append, hclosing, hopen.heard]

/-! ### Whole sessions -/

namespace Session

/-- Two sessions whose drivers have come equally far, and have told the same. -/
structure OneTimeline (s t : Session) : Prop where
  driver : Driver.Like timeline s.driver t.driver
  default : s.driver.default = t.driver.default
  trace : s.trace = t.trace

theorem OneTimeline.beat {s t : Session} (h : OneTimeline s t) {b b' : Beat}
    (hb : b.Synchronous b') : OneTimeline (s.beat b) (t.beat b') := by
  have hA := steady_timeline b.moment hb.active
  have hcall : Driver.LikeAfter timeline (s.driver.call b.moment b.surroundings b.call)
      (t.driver.call b'.moment b'.surroundings b'.call) := by
    have hhas := hb.has
    rw [← hb.moment, ← hb.call]
    cases hb : b.call with
    | activate override =>
        exact h.driver.activate h.default hA.active (hhas override hb) override
    | tick => exact h.driver.tick hA
    | stop => exact h.driver.stop hA
  refine ⟨hcall.driver, ?_, ?_⟩
  · rw [beat_driver, beat_driver, Driver.call_default, Driver.call_default, h.default]
  · rw [beat_trace, beat_trace, Entity.events, Entity.events,
      listens_timeline.happenings_eq hcall.heard, h.trace, hb.moment]

end Session

/-- **The timeline is independent of the world.** In two sessions on the same clock the drivers have
the same status and report, have come equally far in every node, and have told the same trace, however
the positions, aims and intentions of the two entities differ. -/
theorem timeline_ignores_the_world (default : Option Script) (intentions intentions' : Intentions)
    {beats beats' : List Beat} (hbeats : List.Forall₂ Beat.Synchronous beats beats') :
    let session := (Session.fresh default intentions).run beats
    let session' := (Session.fresh default intentions').run beats'
    session.driver.unplaced = session'.driver.unplaced ∧ session.trace = session'.trace := by
  intro session session'
  have hrun : ∀ {s t : Session}, s.OneTimeline t → (s.run beats).OneTimeline (t.run beats') := by
    induction hbeats with
    | nil => exact id
    | cons hb _ ih => exact fun h => ih (h.beat hb)
  have hend : session.OneTimeline session' := hrun ⟨⟨rfl, rfl, .none⟩, rfl, rfl⟩
  exact ⟨hend.driver.unplaced_eq hend.default, hend.trace⟩

/-- One entity strikes at a target and the other, which loses its records before the strike, at
nothing. -/
theorem timeline_ignores_the_world_duel :
    let duel : Script := .tree (.leaf {} (.attack { aim := .target }))
    let beats : List Beat :=
      [⟨⟨0, 1⟩, { target := some .right }, id, .activate none⟩,
        ⟨⟨1, 1⟩, { target := some .right }, id, .tick⟩, ⟨⟨2, 1⟩, {}, id, .stop⟩]
    let beats' : List Beat :=
      [⟨⟨0, 1⟩, {}, id, .activate none⟩,
        ⟨⟨1, 1⟩, { has := fun _ => false }, fun _ => {}, .tick⟩,
        ⟨⟨2, 1⟩, { scroll := .right }, id, .stop⟩]
    let session := (Session.fresh (some duel) .all).run beats
    let session' := (Session.fresh (some duel) .all).run beats'
    session.driver.unplaced = session'.driver.unplaced ∧ session.trace = session'.trace ∧
      session.intentions ≠ session'.intentions := by
  intro duel beats beats' session session'
  have hbeats : List.Forall₂ Beat.Synchronous beats beats' :=
    .cons ⟨rfl, rfl, rfl, fun _ _ => rfl⟩ (.cons ⟨rfl, rfl, rfl, by simp⟩
      (.cons ⟨rfl, rfl, rfl, by simp⟩ .nil))
  obtain ⟨hdriver, htrace⟩ := timeline_ignores_the_world (some duel) .all .all hbeats
  refine ⟨hdriver, htrace, ?_⟩
  have hstrike : session.intentions.melee.isSome = true := rfl
  have hnone : session'.intentions.melee.isSome = false := rfl
  intro heq
  rw [heq, hnone] at hstrike
  contradiction

end Choreo
