import Choreo.Trace
import Mathlib.Data.Set.Insert

/-!
# Windows of nodes

The window of a node is what lies between its start and its end. A trace is read here as a walk
through the sets of nodes that are open: a start adds a node that was not in the set, an end takes one
out that was, and after each of them the set must be legal. Nesting is a matter of the legal sets
alone: if an open node always has its parent open, then a window lies inside a window of the parent.
-/

namespace Choreo

def lifecycleOf (id : Nat) (trace : List Happening) : List Happening :=
  trace.filter fun h => h = .started id ∨ h = .ended id

def alternation (id times : Nat) : List Happening :=
  (List.replicate times [Happening.started id, .ended id]).flatten

/-- The starts and ends of a node take turns, beginning with a start. -/
def Alternates (id : Nat) (trace : List Happening) : Prop :=
  ∃ times, lifecycleOf id trace <+: alternation id times

/-- After the trace the node has been started once more than it has been ended. -/
def Open (id : Nat) (trace : List Happening) : Prop :=
  trace.count (.started id) = trace.count (.ended id) + 1

def AllClosed (trace : List Happening) : Prop :=
  ∀ id, trace.count (.started id) = trace.count (.ended id)

def Unclosed (trace : List Happening) : Prop := .finished ∉ trace ∧ .stopped ∉ trace

/-- The trace ends with its only closing event, and every node has ended before that. -/
def ClosedBy (closing : Happening) (trace : List Happening) : Prop :=
  ∃ body, trace = body ++ [closing] ∧ AllClosed body ∧ Unclosed body

theorem Unclosed.append {trace more : List Happening} (h : Unclosed trace) (hmore : Unclosed more) :
    Unclosed (trace ++ more) := by
  obtain ⟨hfinished, hstopped⟩ := h
  obtain ⟨hfinishedMore, hstoppedMore⟩ := hmore
  refine ⟨?_, ?_⟩
  · rw [List.mem_append]
    exact fun hmem => hmem.elim hfinished hfinishedMore
  · rw [List.mem_append]
    exact fun hmem => hmem.elim hstopped hstoppedMore

/-- In a set that is nested in some edges, every child has its parent. -/
def Nested (edges : List (Nat × Nat)) (opened : Set Nat) : Prop :=
  ∀ e ∈ edges, e.2 ∈ opened → e.1 ∈ opened

/-- A trace about the nodes of a range leads from one set of open nodes to another, through legal sets
only. -/
inductive Unfolds (range : Set Nat) (legal : Set Nat → Prop) :
    Set Nat → List Happening → Set Nat → Prop
  | nil (opened : Set Nat) : Unfolds range legal opened [] opened
  | started {id : Nat} {opened final : Set Nat} {trace : List Happening} (hrange : id ∈ range)
      (hnew : id ∉ opened) (hlegal : legal (insert id opened))
      (next : Unfolds range legal (insert id opened) trace final) :
      Unfolds range legal opened (.started id :: trace) final
  | ended {id : Nat} {opened final : Set Nat} {trace : List Happening} (hrange : id ∈ range)
      (hopen : id ∈ opened) (hlegal : legal (opened \ {id}))
      (next : Unfolds range legal (opened \ {id}) trace final) :
      Unfolds range legal opened (.ended id :: trace) final
  /-- Faults and what happens to the script as a whole open and close nothing. -/
  | aside {h : Happening} {opened final : Set Nat} {trace : List Happening}
      (haside : ∀ id, h ≠ .started id ∧ h ≠ .ended id)
      (next : Unfolds range legal opened trace final) :
      Unfolds range legal opened (h :: trace) final

namespace Unfolds

variable {range wider : Set Nat} {legal legal' : Set Nat → Prop}
  {opened middle final others : Set Nat} {trace more : List Happening}

theorem append (first : Unfolds range legal opened trace middle)
    (second : Unfolds range legal middle more final) :
    Unfolds range legal opened (trace ++ more) final := by
  induction first with
  | nil => exact second
  | started hrange hnew hlegal _ ih => exact .started hrange hnew hlegal (ih second)
  | ended hrange hopen hlegal _ ih => exact .ended hrange hopen hlegal (ih second)
  | aside haside _ ih => exact .aside haside (ih second)

theorem split (before after : List Happening)
    (h : Unfolds range legal opened (before ++ after) final) :
    ∃ middle, Unfolds range legal opened before middle ∧ Unfolds range legal middle after final := by
  induction before generalizing opened with
  | nil => exact ⟨opened, .nil opened, h⟩
  | cons x before ih =>
      cases h with
      | started hrange hnew hlegal next =>
          obtain ⟨middle, hbefore, hafter⟩ := ih next
          exact ⟨middle, .started hrange hnew hlegal hbefore, hafter⟩
      | ended hrange hopen hlegal next =>
          obtain ⟨middle, hbefore, hafter⟩ := ih next
          exact ⟨middle, .ended hrange hopen hlegal hbefore, hafter⟩
      | aside haside next =>
          obtain ⟨middle, hbefore, hafter⟩ := ih next
          exact ⟨middle, .aside haside hbefore, hafter⟩

/-- A trace goes the same way while nodes outside its range stay open. -/
theorem frame (h : Unfolds range legal opened trace final) (hopened : opened ⊆ range)
    (hwider : range ⊆ wider) (hothers : ∀ id ∈ others, id ∉ range)
    (hlegal : ∀ q ⊆ range, legal q → legal' (others ∪ q)) :
    Unfolds wider legal' (others ∪ opened) trace (others ∪ final) := by
  induction h with
  | nil => exact .nil _
  | @started id opened _ _ hrange hnew hset _ ih =>
      have hinsert : insert id opened ⊆ range := Set.insert_subset hrange hopened
      have hnot : id ∉ others := fun hid => hothers id hid hrange
      refine .started (hwider hrange) (by simp [hnot, hnew]) ?_ ?_ <;>
        rw [← Set.union_insert]
      · exact hlegal _ hinsert hset
      · exact ih hinsert
  | @ended id opened _ _ hrange hopen hset _ ih =>
      have hdiff : opened \ {id} ⊆ range := fun i hi => hopened hi.1
      have hnot : id ∉ others := fun hid => hothers id hid hrange
      have hset_eq : (others ∪ opened) \ {id} = others ∪ opened \ {id} := by
        ext i
        by_cases hi : i = id
        · subst hi
          simp [hnot]
        · simp [hi]
      refine .ended (hwider hrange) (by simp [hopen]) ?_ ?_ <;> rw [hset_eq]
      · exact hlegal _ hdiff hset
      · exact ih hdiff
  | aside haside _ ih => exact .aside haside (ih hopened)

theorem asides (hasides : ∀ h ∈ trace, ∀ id, h ≠ .started id ∧ h ≠ .ended id) :
    Unfolds range legal opened trace opened := by
  induction trace with
  | nil => exact .nil opened
  | cons h trace ih =>
      have hrest := ih fun k hk => hasides k (by simp [hk])
      exact .aside (hasides h (by simp)) hrest

/-! ### What a walk says about its trace -/

theorem mem_range_of_started {id : Nat} (h : Unfolds range legal opened trace final)
    (hid : .started id ∈ trace) : id ∈ range := by
  induction h with
  | nil => simp at hid
  | @started i _ _ _ hrange _ _ _ ih =>
      rcases List.mem_cons.mp hid with heq | hid
      · obtain rfl : id = i := by simpa using heq
        exact hrange
      · exact ih hid
  | ended _ _ _ _ ih => exact ih (by simpa using hid)
  | aside haside _ ih =>
      rcases List.mem_cons.mp hid with heq | hid
      · exact absurd heq.symm (haside id).1
      · exact ih hid

open Classical in
theorem count_eq (h : Unfolds range legal opened trace final) (id : Nat) :
    trace.count (.started id) + (if id ∈ opened then 1 else 0) =
      trace.count (.ended id) + (if id ∈ final then 1 else 0) := by
  induction h with
  | nil => rfl
  | @started i opened _ trace _ hnew _ _ ih =>
      by_cases hi : i = id
      · subst hi
        simp only [Set.mem_insert_iff, true_or, ↓reduceIte] at ih
        rw [List.count_cons_self, List.count_cons_of_ne (by simp), if_neg hnew]
        omega
      · have hmem : id ∈ insert i opened ↔ id ∈ opened := by simp [Ne.symm hi]
        simp only [hmem] at ih
        rw [List.count_cons_of_ne (by simpa using hi), List.count_cons_of_ne (by simp), ih]
  | @ended i opened _ trace _ hopen _ _ ih =>
      by_cases hi : i = id
      · subst hi
        simp only [Set.mem_sdiff, Set.mem_singleton_iff, not_true_eq_false, and_false,
          ↓reduceIte] at ih
        rw [List.count_cons_self, List.count_cons_of_ne (by simp), if_pos hopen]
        omega
      · have hmem : id ∈ opened \ {i} ↔ id ∈ opened := by simp [Ne.symm hi]
        simp only [hmem] at ih
        rw [List.count_cons_of_ne (by simp), List.count_cons_of_ne (by simpa using hi), ih]
  | aside haside _ ih =>
      rw [List.count_cons_of_ne (haside id).1, List.count_cons_of_ne (haside id).2, ih]

theorem open_iff (h : Unfolds range legal ∅ trace final) (id : Nat) :
    Open id trace ↔ id ∈ final := by
  classical
  have hcount := h.count_eq id
  by_cases hid : id ∈ final <;> simp [hid] at hcount <;> simp [Open, hid, hcount]

theorem allClosed (h : Unfolds range legal ∅ trace ∅) : AllClosed trace := by
  intro id
  simpa using h.count_eq id

private theorem lifecycleOf_cons_of_ne {id : Nat} {x : Happening} (trace : List Happening)
    (hstarted : x ≠ .started id) (hended : x ≠ .ended id) :
    lifecycleOf id (x :: trace) = lifecycleOf id trace := by
  simp [lifecycleOf, hstarted, hended]

private theorem alternates_cons {id : Nat} {x : Happening} {opened opened' : Set Nat}
    {trace : List Happening} (hmem : id ∈ opened ↔ id ∈ opened')
    (hstarted : x ≠ .started id) (hended : x ≠ .ended id)
    (h : (id ∉ opened' → Alternates id trace) ∧
      (id ∈ opened' → Alternates id (.started id :: trace))) :
    (id ∉ opened → Alternates id (x :: trace)) ∧
      (id ∈ opened → Alternates id (.started id :: x :: trace)) := by
  constructor
  · intro hid
    obtain ⟨times, htimes⟩ := h.1 (by rwa [← hmem])
    exact ⟨times, by rwa [lifecycleOf_cons_of_ne _ hstarted hended]⟩
  · intro hid
    obtain ⟨times, htimes⟩ := h.2 (by rwa [← hmem])
    refine ⟨times, ?_⟩
    simpa [lifecycleOf, hstarted, hended] using htimes

theorem alternates_of_mem_or_not (h : Unfolds range legal opened trace final) (id : Nat) :
    (id ∉ opened → Alternates id trace) ∧ (id ∈ opened → Alternates id (.started id :: trace)) := by
  induction h with
  | nil =>
      exact ⟨fun _ => ⟨0, by simp [lifecycleOf]⟩, fun _ => ⟨1, by simp [lifecycleOf, alternation]⟩⟩
  | @started i opened _ trace _ hnew _ _ ih =>
      by_cases hi : i = id
      · subst hi
        exact ⟨fun _ => ih.2 (by simp), fun hid => absurd hid hnew⟩
      · exact alternates_cons (by simp [Ne.symm hi]) (by simpa using hi) (by simp) ih
  | @ended i opened _ trace _ hopen _ _ ih =>
      by_cases hi : i = id
      · subst hi
        refine ⟨fun hid => absurd hopen hid, fun _ => ?_⟩
        obtain ⟨times, htimes⟩ := ih.1 (by simp)
        refine ⟨times + 1, ?_⟩
        simpa [lifecycleOf, alternation, List.replicate_succ] using htimes
      · exact alternates_cons (by simp [Ne.symm hi]) (by simp) (by simpa using hi) ih
  | aside haside _ ih => exact alternates_cons Iff.rfl (haside id).1 (haside id).2 ih

theorem alternates (h : Unfolds range legal ∅ trace final) (id : Nat) : Alternates id trace :=
  (h.alternates_of_mem_or_not id).1 (by simp)

/-- A node starts while its parent is open. -/
theorem open_of_started {edges : List (Nat × Nat)} {p c : Nat} {before after : List Happening}
    (h : Unfolds range (Nested edges) ∅ (before ++ .started c :: after) final)
    (hedge : (p, c) ∈ edges) (hne : p ≠ c) : Open p before := by
  obtain ⟨middle, hbefore, hafter⟩ := h.split before _
  rw [hbefore.open_iff]
  cases hafter with
  | started _ _ hlegal _ =>
      have hp : p ∈ insert c middle := hlegal (p, c) hedge (by simp)
      simpa [hne] using hp
  | aside haside _ => exact absurd rfl (haside c).1

/-- A node ends after all its children. -/
theorem not_open_of_ended {edges : List (Nat × Nat)} {p c : Nat} {before after : List Happening}
    (h : Unfolds range (Nested edges) ∅ (before ++ .ended p :: after) final)
    (hedge : (p, c) ∈ edges) (hne : p ≠ c) : ¬ Open c before := by
  obtain ⟨middle, hbefore, hafter⟩ := h.split before _
  rw [hbefore.open_iff]
  intro hc
  cases hafter with
  | ended _ _ hlegal _ =>
      have hp : p ∈ middle \ {p} := hlegal (p, c) hedge ⟨hc, by simpa using Ne.symm hne⟩
      simp at hp
  | aside haside _ => exact absurd rfl (haside p).2

end Unfolds

end Choreo
