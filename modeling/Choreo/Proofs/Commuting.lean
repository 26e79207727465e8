import Choreo.Proofs.Writers
import Mathlib.Data.Set.BooleanAlgebra
import Mathlib.Order.CompletePartialOrder

/-!
# Writes that commute

Two writes to different fields can be made in either order. So trees whose leaves write to different
fields can take their turns in either order, if all that is asked is what becomes of the records of the
entity and what happens how often.
-/

namespace Choreo

/-- The field that the write changes, or one of several that only writes of its sort change. -/
def Write.field : Write → Intentions.Field
  | velocity _ => .velocity
  | groundSpeed _ => .groundSpeed
  | jump _ => .jumpImpulse
  | shot _ => .once
  | bullet _ => .directions
  | toss .. => .tossStart
  | strike _ => .strikeStart

namespace Write

theorem authors_eq (x : Write) : x.authors = x.field.writers := by
  cases x <;> rfl

theorem apply_comm {x y : Write} (hfields : x.field ≠ y.field) (i : Intentions) :
    apply (apply i x) y = apply (apply i y) x := by
  cases x <;> cases y <;>
    first
    | exact absurd rfl hfields
    | simp [apply, Function.comp_def, Gunfire.requestOnce, Gunfire.push]

theorem applyAll_apply_comm {x : Write} {ys : List Write} (hfields : ∀ y ∈ ys, x.field ≠ y.field)
    (i : Intentions) : applyAll (apply i x) ys = apply (applyAll i ys) x := by
  induction ys generalizing i with
  | nil => rfl
  | cons y rest ih =>
      calc applyAll (apply i x) (y :: rest)
        _ = applyAll (apply (apply i x) y) rest := rfl
        _ = applyAll (apply (apply i y) x) rest := by rw [apply_comm (hfields y (by simp))]
        _ = apply (applyAll (apply i y) rest) x := ih (fun z hz => hfields z (by simp [hz])) _

theorem applyAll_comm {xs ys : List Write} (hfields : ∀ x ∈ xs, ∀ y ∈ ys, x.field ≠ y.field)
    (i : Intentions) : applyAll (applyAll i xs) ys = applyAll (applyAll i ys) xs := by
  induction xs generalizing i with
  | nil => rfl
  | cons x rest ih =>
      calc applyAll (applyAll i (x :: rest)) ys
        _ = applyAll (applyAll (apply i x) rest) ys := rfl
        _ = applyAll (applyAll (apply i x) ys) rest := ih (fun z hz => hfields z (by simp [hz])) _
        _ = applyAll (apply (applyAll i ys) x) rest := by
          rw [applyAll_apply_comm (hfields x (by simp))]

end Write

/-- The same things happen, in whatever order, and the same becomes of all records. -/
structure Alike (effects effects' : List Effect) : Prop where
  happenings : (Effect.happenings effects).Perm (Effect.happenings effects')
  writes : ∀ i : Intentions, Write.applyAll i (Effect.writes effects) =
    Write.applyAll i (Effect.writes effects')

namespace Alike

variable {first second first' second' third : List Effect}

theorem refl (effects : List Effect) : Alike effects effects :=
  ⟨.refl _, fun _ => rfl⟩

theorem trans (h : Alike first second) (h' : Alike second third) : Alike first third :=
  ⟨h.happenings.trans h'.happenings, fun i => (h.writes i).trans (h'.writes i)⟩

theorem append (h : Alike first first') (h' : Alike second second') :
    Alike (first ++ second) (first' ++ second') := by
  constructor
  · rw [Node.happenings_append, Node.happenings_append]
    exact h.happenings.append h'.happenings
  · intro i
    rw [Effect.writes_append, Effect.writes_append, Write.applyAll_append, Write.applyAll_append,
      h.writes, h'.writes]

theorem cons (e : Effect) (h : Alike first first') : Alike (e :: first) (e :: first') :=
  append (refl [e]) h

theorem swap (hfields : ∀ x ∈ Effect.writes first, ∀ y ∈ Effect.writes second, x.field ≠ y.field) :
    Alike (first ++ second) (second ++ first) := by
  constructor
  · rw [Node.happenings_append, Node.happenings_append]
    exact List.perm_append_comm
  · intro i
    rw [Effect.writes_append, Effect.writes_append, Write.applyAll_append, Write.applyAll_append,
      Write.applyAll_comm hfields]

end Alike

namespace Node

/-- The fields that some leaf of the tree may write. -/
def writeSet (n : Node) : Set Intentions.Field := {f | ∃ k ∈ n.preorder, k.kind ∈ f.writers}

/-- No field is written by both trees. -/
def Apart (n k : Node) : Prop := Disjoint n.writeSet k.writeSet

theorem Apart.symm {n k : Node} (h : n.Apart k) : k.Apart n := Disjoint.symm h

theorem writeSet_congr {n k : Node} (h : n.preorder.map kind = k.preorder.map kind) :
    n.writeSet = k.writeSet := by
  have hkinds : ∀ (n : Node) (f : Intentions.Field),
      f ∈ n.writeSet ↔ ∃ author ∈ n.preorder.map kind, author ∈ f.writers := by
    simp [writeSet]
  ext f
  rw [hkinds, hkinds, h]

/-- The effects write only fields of the tree. -/
def Confined (n : Node) (effects : List Effect) : Prop :=
  ∀ x ∈ Effect.writes effects, x.field ∈ n.writeSet

variable {m : Moment} {w : Surroundings}

theorem mem_writes {x : Write} {effects : List Effect} :
    x ∈ Effect.writes effects ↔ .write x ∈ effects := by
  rw [Effect.writes, List.mem_filterMap]
  constructor
  · rintro ⟨e, he, heq⟩
    cases e with
    | event h => cases heq
    | write y =>
        obtain rfl : y = x := Option.some.inj heq
        exact he
  · exact fun hx => ⟨_, hx, rfl⟩

/-- A turn of a tree that leaves it sound, with the fields that it had, and writes nothing else. -/
structure Keeps (n : Node) (result : Node × List Effect) : Prop where
  sound : result.1.Sound
  writeSet : result.1.writeSet = n.writeSet
  confined : n.Confined result.2

theorem keeps_rest {n : Node} (hsound : n.Sound) : n.Keeps (n, []) :=
  ⟨hsound, rfl, by simp [Confined, Effect.writes]⟩

theorem Proceeds.keeps {n : Node} {result : Node × List Effect} (h : Proceeds m w n result) :
    n.Keeps result := by
  have hkinds : [result.1].map (fun n => n.preorder.map kind) =
      [n].map fun n => n.preorder.map kind := by
    refine h.course.map_eq _ fun n k hkind _ hchildren => ?_
    rw [preorder_eq, preorder_eq, List.map_cons, List.map_cons, List.map_flatMap, List.map_flatMap,
      List.flatMap_def, List.flatMap_def, hchildren, hkind]
  refine ⟨h.sound, writeSet_congr (by simpa using hkinds), ?_⟩
  intro x hx
  obtain ⟨k, hk, hkind, _⟩ := h.course.attributed (mem_writes.mp hx)
  rw [x.authors_eq] at hkind
  exact ⟨k, by simpa using hk, hkind⟩

/-- Trees that write different fields can have their turns in any order. -/
theorem alike_flatMap {turn : Node → List Effect} {nodes nodes' : List Node}
    (hperm : nodes.Perm nodes') (hapart : nodes.Pairwise Apart)
    (hconfined : ∀ n ∈ nodes, n.Confined (turn n)) :
    Alike (nodes.flatMap turn) (nodes'.flatMap turn) := by
  induction hperm with
  | nil => exact .refl []
  | cons n _ ih =>
      have hrest := ih (List.pairwise_cons.mp hapart).2 fun k hk => hconfined k (by simp [hk])
      rw [List.flatMap_cons, List.flatMap_cons]
      exact .append (.refl _) hrest
  | swap n k rest =>
      have hapart : k.Apart n := (List.pairwise_cons.mp hapart).1 n (by simp)
      have hswap : Alike (turn k ++ turn n) (turn n ++ turn k) := by
        refine .swap fun x hx y hy hsame => ?_
        have hxField : x.field ∈ k.writeSet := hconfined k (by simp) x hx
        have hyField : y.field ∈ n.writeSet := hconfined n (by simp) y hy
        exact Set.disjoint_left.mp hapart hxField (hsame ▸ hyField)
      simp only [List.flatMap_cons, ← List.append_assoc]
      exact .append hswap (.refl _)
  | trans hfirst _ ih ih' =>
      have hmiddle := (hfirst.pairwise_iff Apart.symm).mp hapart
      exact (ih hapart hconfined).trans
        (ih' hmiddle fun n hn => hconfined n (hfirst.mem_iff.mpr hn))

end Node

end Choreo
