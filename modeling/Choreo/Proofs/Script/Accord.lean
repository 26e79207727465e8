import Choreo.Proofs.Node.Accord
import Choreo.Proofs.Session

/-!
# Two scripts in accord

An accord that the leaves keep is kept by every tick and every stop of two drivers, and by every
activation whose check leaves the two scripts in accord.
-/

namespace Choreo

namespace Accord

/-- Whatever happens is heard. -/
def Listens (A : Accord) : Prop := ∀ e : Effect, (A.heard e).bind Effect.happening? = e.happening?

theorem Listens.happenings_eq {A : Accord} (hA : A.Listens) {effects effects' : List Effect}
    (h : A.hear effects = A.hear effects') :
    Effect.happenings effects = Effect.happenings effects' := by
  have hheard : ∀ effects, Effect.happenings effects = Effect.happenings (A.hear effects) := by
    intro effects
    rw [Effect.happenings, Effect.happenings, hear, List.filterMap_filterMap]
    exact List.filterMap_congr fun e _ => (hA e).symm
  rw [hheard effects, hheard effects', h]

end Accord

variable {A : Accord} {m : Moment} {w w' : Surroundings}

namespace Script

inductive Like (A : Accord) : Script → Script → Prop
  | tree {root root' : Node} (h : Node.Like A root root') : Like A (tree root) (tree root')
  | flat {actions actions' : List Node} (cursor : Cursor)
      (h : List.Forall₂ (Node.Like A) actions actions') :
      Like A (flat actions cursor) (flat actions' cursor)

structure LikeAfter (A : Accord) (result result' : Script × List Effect) : Prop where
  script : Like A result.1 result'.1
  heard : A.hear result.2 = A.hear result'.2

theorem Like.refl (hleaf : ∀ h a, A.leaf h a a) (s : Script) : Like A s s := by
  cases s with
  | tree root => exact .tree (.refl hleaf root)
  | flat actions cursor => exact .flat cursor (List.forall₂_same.mpr fun n _ => .refl hleaf n)

variable {s t : Script}

theorem Like.hasStopped (hA : A.Steady m w w') (h : Like A s t) :
    s.hasStopped w = t.hasStopped w' := by
  cases h with
  | tree h => exact h.hasStopped hA
  | flat cursor h => rw [Script.hasStopped, Script.hasStopped, hA.active]

theorem Like.start (hA : A.Steady m w w') (h : Like A s t) :
    LikeAfter A (s.start w) (t.start w') := by
  cases h with
  | tree h =>
      obtain ⟨hnode, hheard⟩ := h.start hA
      exact ⟨.tree hnode, hheard⟩
  | flat cursor h => exact ⟨.flat _ h, rfl⟩

theorem Like.update (hA : A.Steady m w w') (h : Like A s t) :
    LikeAfter A (s.update m w) (t.update m w') := by
  cases h with
  | tree h =>
      obtain ⟨hnode, hheard⟩ := h.update hA
      exact ⟨.tree hnode, hheard⟩
  | @flat actions actions' cursor h =>
      obtain ⟨⟨hnodes, hheard⟩, hcursor⟩ := Node.walk_like hA h cursor
      refine ⟨?_, hheard⟩
      change Like A (.flat (Node.walk m w cursor actions).1 (Node.walk m w cursor actions).2.1)
        (.flat (Node.walk m w' cursor actions').1 (Node.walk m w' cursor actions').2.1)
      rw [hcursor]
      exact .flat _ hnodes

theorem Like.finish (hA : A.Steady m w w') (h : Like A s t) : LikeAfter A s.finish t.finish := by
  cases h with
  | tree h =>
      obtain ⟨hnode, hheard⟩ := h.finish hA
      exact ⟨.tree hnode, hheard⟩
  | flat cursor h =>
      obtain ⟨hnodes, hheard⟩ := Node.finishAt_like h (fun n _ k hlike => hlike.finish hA) cursor
      exact ⟨.flat _ hnodes, hheard⟩

end Script

namespace Driver

structure Like (A : Accord) (d e : Driver) : Prop where
  status : d.status = e.status
  report : d.report = e.report
  script : Option.Rel (Script.Like A) d.script e.script

structure LikeAfter (A : Accord) (result result' : Driver × List Effect) : Prop where
  driver : Like A result.1 result'.1
  heard : A.hear result.2 = A.hear result'.2

variable {d e : Driver}

theorem Like.held (h : Like A d e) :
    d.script = none ∧ e.script = none ∨
      ∃ s t, d.script = some s ∧ e.script = some t ∧ Script.Like A s t := by
  have hscript := h.script
  generalize d.script = s at hscript ⊢
  generalize e.script = t at hscript ⊢
  cases hscript with
  | none => exact Or.inl ⟨rfl, rfl⟩
  | some h => exact Or.inr ⟨_, _, rfl, rfl, h⟩

theorem Like.stop (hA : A.Steady m w w') (h : Like A d e) : LikeAfter A d.stop e.stop := by
  by_cases hrunning : d.status = .running
  · have hrunning' : e.status = .running := by rwa [← h.status]
    rcases h.held with ⟨hd, he⟩ | ⟨s, t, hd, he, hst⟩
    · rw [stop_of_none hrunning hd, stop_of_none hrunning' he]
      exact ⟨⟨rfl, h.report, h.script⟩, rfl⟩
    · obtain ⟨hfinish, hheard⟩ := hst.finish hA
      rw [stop_of_running hrunning hd, stop_of_running hrunning' he]
      refine ⟨⟨rfl, h.report, .some hfinish⟩, ?_⟩
      rw [Accord.hear_append, Accord.hear_append, hheard]
  · have hrunning' : e.status ≠ .running := by rwa [← h.status]
    rw [stop_of_not_running hrunning, stop_of_not_running hrunning']
    exact ⟨h, rfl⟩

theorem Like.tick (hA : A.Steady m w w') (h : Like A d e) :
    LikeAfter A (d.tick m w) (e.tick m w') := by
  by_cases hrunning : d.status = .running
  · have hrunning' : e.status = .running := by rwa [← h.status]
    rcases h.held with ⟨hd, he⟩ | ⟨s, t, hd, he, hst⟩
    · rw [tick_of_none m w hrunning hd, tick_of_none m w' hrunning' he]
      exact ⟨⟨rfl, h.report, h.script⟩, rfl⟩
    · have hstopped := hst.hasStopped hA
      cases hstop : s.hasStopped w with
      | true =>
          rw [hstop] at hstopped
          obtain ⟨hfinish, hheard⟩ := hst.finish hA
          rw [tick_of_hasStopped m w hrunning hd hstop,
            tick_of_hasStopped m w' hrunning' he hstopped.symm, hA.active]
          refine ⟨⟨rfl, h.report, .some hfinish⟩, ?_⟩
          rw [Accord.hear_append, Accord.hear_append, hheard]
      | false =>
          rw [hstop] at hstopped
          obtain ⟨hupdate, hheard⟩ := hst.update hA
          rw [tick_of_not_hasStopped m w hrunning hd hstop,
            tick_of_not_hasStopped m w' hrunning' he hstopped.symm]
          exact ⟨⟨h.status, h.report, .some hupdate⟩, hheard⟩
  · have hrunning' : e.status ≠ .running := by rwa [← h.status]
    rw [tick_of_not_running m w hrunning, tick_of_not_running m w' hrunning']
    exact ⟨h, rfl⟩

/-- Two scripts that a check leaves in accord, and with the same faults, stay in accord when they are
activated. -/
theorem likeAfter_activate (hA : A.Steady m w w') (hd : d.status ≠ .running)
    (he : e.status ≠ .running) {o o' : Option Script} {s t : Script}
    (hs : (o <|> d.default) = some s) (ht : (o' <|> e.default) = some t)
    (hlike : Script.Like A (s.init w).1 (t.init w').1) (hreport : (s.init w).2 = (t.init w').2) :
    LikeAfter A (d.activate w o).1 (e.activate w' o').1 := by
  obtain ⟨hstart, hheard⟩ := hlike.start hA
  rw [activate_of_some w hd hs, activate_of_some w' he ht]
  refine ⟨⟨rfl, hreport, .some hstart⟩, ?_⟩
  rw [hreport, Accord.hear_append, Accord.hear_append, Accord.hear_append, Accord.hear_append,
    hheard]

end Driver

end Choreo
