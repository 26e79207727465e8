import Choreo.Proofs.Node.Unfolding

/-!
# Steering

Three kinds of leaf steer: in every tick of theirs they write a velocity, which stays until it is
overwritten. A leaf that steers takes its velocity back when it ends.

Several of them may share the one record and end at different times, so a velocity need not belong to
the leaf that wrote it last. What every turn of a node keeps is weaker: either the entity is still, or
some leaf of the forest steers.
-/

namespace Choreo

/-- Whoever can move has no velocity. -/
def Intentions.Still (i : Intentions) : Prop := ∀ motion ∈ i.movement, motion.velocity == .zero

instance (i : Intentions) : Decidable i.Still :=
  inferInstanceAs (Decidable (∀ motion ∈ i.movement, motion.velocity == .zero))

/-! ### Writes -/

namespace Write

def sparesVelocity : Write → Bool
  | velocity _ => false
  | _ => true

theorem applyAll_append (i : Intentions) (writes more : List Write) :
    applyAll i (writes ++ more) = applyAll (applyAll i writes) more :=
  List.foldl_append

theorem still_apply {i : Intentions} (hstill : i.Still) {x : Write}
    (hx : x.sparesVelocity = true) : (x.apply i).Still := by
  intro motion hmotion
  cases x with
  | velocity v => cases hx
  | groundSpeed speed =>
      obtain ⟨former, hformer, rfl⟩ := Option.map_eq_some_iff.mp hmotion
      exact hstill former hformer
  | jump impulse =>
      obtain ⟨former, hformer, rfl⟩ := Option.map_eq_some_iff.mp hmotion
      exact hstill former hformer
  | _ => exact hstill motion hmotion

theorem still_applyAll {i : Intentions} (hstill : i.Still) {writes : List Write}
    (hwrites : ∀ x ∈ writes, x.sparesVelocity = true) : (applyAll i writes).Still := by
  induction writes generalizing i with
  | nil => exact hstill
  | cons x rest ih =>
      have hx := still_apply hstill (hwrites x (by simp))
      exact ih hx fun y hy => hwrites y (by simp [hy])

theorem zero_beq_zero : (Planar.zero == Planar.zero) = true := by decide +kernel

theorem still_velocity_zero (i : Intentions) : ((velocity .zero).apply i).Still := by
  intro motion hmotion
  obtain ⟨former, _, rfl⟩ := Option.map_eq_some_iff.mp hmotion
  exact zero_beq_zero

end Write

namespace Effect

theorem writes_append (effects more : List Effect) :
    writes (effects ++ more) = writes effects ++ writes more :=
  List.filterMap_append

@[simp]
theorem writes_event (h : Happening) (effects : List Effect) :
    writes (.event h :: effects) = writes effects := rfl

@[simp]
theorem writes_events (happenings : List Happening) : writes (happenings.map .event) = [] := by
  rw [writes, List.filterMap_map, List.filterMap_eq_nil_iff]
  exact fun _ _ => rfl

@[simp]
theorem writes_map (l : List Write) : writes (l.map .write) = l := by
  rw [writes, List.filterMap_map]
  exact List.filterMap_some

end Effect

namespace Leaf

theorem start_sparesVelocity (w : Surroundings) (a : Leaf) :
    ∀ x ∈ (a.start w).2, x.sparesVelocity = true := by
  cases a <;> simp [start, Write.sparesVelocity]

theorem update_sparesVelocity (m : Moment) (w : Surroundings) {a : Leaf}
    (ha : a.steersVelocity = false) : ∀ x ∈ (a.update m w).2, x.sparesVelocity = true := by
  cases a with
  | moveBy a => cases ha
  | followPath a => cases ha
  | followBezier a => cases ha
  | wait a => simp [update]
  | walk a => simp [update]
  | jump a => cases h : a.requested <;> simp [update, Jump.update, h, Write.sparesVelocity]
  | singleShot a => cases h : a.fired <;> simp [update, SingleShot.update, h, Write.sparesVelocity]
  | barrage a =>
      intro x hx
      cases h : a.isOver with
      | true => simp [update, Barrage.update, h] at hx
      | false =>
          simp only [update, Barrage.update, h] at hx
          obtain ⟨index, _, rfl⟩ := List.mem_map.mp hx
          rfl
  | attack a => cases h : a.done <;> simp [update, Attack.update, h, Write.sparesVelocity]
  | lob a => cases h : a.done <;> simp [update, Lob.update, h, Write.sparesVelocity]

theorem update_steersVelocity (m : Moment) (w : Surroundings) (a : Leaf) :
    (a.update m w).1.steersVelocity = a.steersVelocity := by
  cases a <;> rfl

theorem kind_mem_of_steersVelocity (a : Leaf) (ha : a.steersVelocity = true) :
    a.kind ∈ [.moveBy, .followPath, .followBezier] := by
  cases a <;> simp_all [steersVelocity, kind]

end Leaf

namespace Node

def steersVelocity : Node → Bool
  | leaf _ a => a.steersVelocity
  | _ => false

/-- The node is running, and steers. -/
structure Steers (n : Node) : Prop where
  active : n.header.active = true
  live : n.header.live = true
  steersVelocity : n.steersVelocity = true

theorem Steers.kind_mem {n : Node} (h : n.Steers) :
    n.kind ∈ [.moveBy, .followPath, .followBezier] := by
  have hsteers := h.steersVelocity
  cases n with
  | leaf header a => exact a.kind_mem_of_steersVelocity hsteers
  | _ => cases hsteers

def Steered (nodes : List Node) : Prop := ∃ n ∈ nodes.flatMap preorder, n.Steers

theorem forall_preorder_split {before after : List Node} {n : Node} {P : Node → Prop} :
    (∀ k ∈ (before ++ n :: after).flatMap preorder, P k) ↔
      P n ∧ (∀ k ∈ n.children.flatMap preorder, P k) ∧
        ∀ k ∈ (before ++ after).flatMap preorder, P k := by
  have hsplit : ∀ k, k ∈ (before ++ n :: after).flatMap preorder ↔
      k = n ∨ k ∈ n.children.flatMap preorder ∨ k ∈ (before ++ after).flatMap preorder := by
    intro k
    rw [mem_split, preorder_eq, List.mem_cons, or_assoc]
  simp only [hsplit, or_imp, forall_and, forall_eq]

theorem steered_split {before after : List Node} {n : Node} :
    Steered (before ++ n :: after) ↔ n.Steers ∨ Steered n.children ∨ Steered (before ++ after) := by
  have hnot : ∀ nodes, ¬ Steered nodes ↔ ∀ k ∈ nodes.flatMap preorder, ¬ k.Steers := by
    intro nodes
    rw [Steered, not_exists]
    simp only [not_and]
  rw [← not_iff_not, hnot, forall_preorder_split, not_or, not_or, hnot, hnot]

variable {m : Moment} {w : Surroundings} {n : Node} {i : Intentions} {elsewhere : Prop}

/-! ### A node's own part

`elsewhere` is what may account for a velocity besides the node. -/

theorem own_of_spares {next : Node} {writes : List Write} (hsteers : ¬ n.Steers)
    (hspares : ∀ x ∈ writes, x.sparesVelocity = true) (h : i.Still ∨ elsewhere ∨ n.Steers) :
    (Write.applyAll i writes).Still ∨ elsewhere ∨ next.Steers := by
  rcases h with hstill | helse | hcontra
  · exact Or.inl (Write.still_applyAll hstill hspares)
  · exact Or.inr (Or.inl helse)
  · contradiction

theorem own_start (hrest : n.header.active = false) (h : i.Still ∨ elsewhere ∨ n.Steers) :
    (Write.applyAll i (n.startWrites w)).Still ∨ elsewhere ∨ (n.start w).1.Steers := by
  have hsteers : ¬ n.Steers := by
    intro hsteers
    have hactive := hsteers.active
    rw [hrest] at hactive
    contradiction
  apply own_of_spares hsteers _ h
  cases n with
  | leaf header a =>
      rw [startWrites]
      split
      · exact a.start_sparesVelocity w
      · simp
  | _ => simp [startWrites]

theorem own_update (hactive : n.header.active = true) (h : i.Still ∨ elsewhere ∨ n.Steers) :
    (Write.applyAll i (n.updateWrites m w)).Still ∨ elsewhere ∨ (n.update m w).1.Steers := by
  by_cases hsteers : n.Steers
  · have hkept : (n.update m w).1.steersVelocity = true := by
      obtain ⟨_, hlive, hsteers⟩ := hsteers
      cases n with
      | leaf header a =>
          have hlive : header.live = true := hlive
          rw [update_leaf, if_pos hlive]
          exact (a.update_steersVelocity m w).trans hsteers
      | _ => cases hsteers
    refine Or.inr (Or.inr ⟨?_, ?_, hkept⟩)
    · rw [update_header, hactive]
    · rw [update_header, hsteers.live]
  · apply own_of_spares hsteers _ h
    cases n with
    | leaf header a =>
        rw [updateWrites]
        split
        · rename_i hlive
          have ha : a.steersVelocity = false :=
            Bool.eq_false_iff.mpr fun ha => hsteers ⟨hactive, hlive, ha⟩
          exact a.update_sparesVelocity m w ha
        · simp
    | _ => simp [updateWrites]

theorem own_finish (hactive : n.header.active = true) (h : i.Still ∨ elsewhere ∨ n.Steers) :
    (Write.applyAll i n.finishWrites).Still ∨ elsewhere ∨ n.finish.1.Steers := by
  by_cases hsteers : n.Steers
  · have hwrites : n.finishWrites = [.velocity .zero] := by
      obtain ⟨_, hlive, hsteers⟩ := hsteers
      cases n with
      | leaf header a =>
          have ha : a.steersVelocity = true := hsteers
          have hlive : header.live = true := hlive
          simp [finishWrites, hlive, Leaf.finish, ha]
      | _ => cases hsteers
    rw [hwrites]
    exact Or.inl (Write.still_velocity_zero i)
  · apply own_of_spares hsteers _ h
    have hnone : n.finishWrites = [] := by
      cases n with
      | leaf header a =>
          rw [finishWrites]
          split
          · rename_i hlive
            have ha : ¬ a.steersVelocity = true := fun ha => hsteers ⟨hactive, hlive, ha⟩
            rw [Leaf.finish, if_neg ha]
          · rfl
      | _ => rfl
    simp [hnone]

/-! ### Courses -/

/-- There is no velocity without something that steers. -/
def Accounted (i : Intentions) (elsewhere : Prop) (nodes : List Node) : Prop :=
  i.Still ∨ elsewhere ∨ Steered nodes

theorem accounted_turn {before after : List Node} {next : Node} {own inner : List Write}
    (hown : ∀ p : Prop, i.Still ∨ p ∨ n.Steers →
      (Write.applyAll i own).Still ∨ p ∨ next.Steers)
    (hbelow : ∀ i p, Accounted i p n.children → Accounted (Write.applyAll i inner) p next.children)
    (h : Accounted i elsewhere (before ++ n :: after)) :
    Accounted (Write.applyAll i (own ++ inner)) elsewhere (before ++ next :: after) := by
  rw [Accounted, steered_split] at h
  have hafter := hown (elsewhere ∨ Steered n.children ∨ Steered (before ++ after)) (by grind)
  have hchildren : Accounted (Write.applyAll i own)
      (elsewhere ∨ next.Steers ∨ Steered (before ++ after)) n.children := by
    rw [Accounted]
    grind
  have hresult := hbelow _ _ hchildren
  rw [Accounted] at hresult
  rw [Accounted, steered_split, Write.applyAll_append]
  grind

theorem Course.accounted {nodes result : List Node} {effects : List Effect}
    (course : Course m w nodes effects result) (h : Accounted i elsewhere nodes) :
    Accounted (Write.applyAll i (Effect.writes effects)) elsewhere result := by
  induction course generalizing i elsewhere with
  | done nodes => exact h
  | @start before after n result inner outer hrest _ _ ihBelow ihNext =>
      have hturn := accounted_turn (fun _ => own_start (w := w) hrest) (fun _ _ => ihBelow) h
      rw [Effect.writes_append, Effect.writes_append, Effect.writes_event, Effect.writes_map,
        Write.applyAll_append]
      exact ihNext hturn
  | @update before after n result inner outer hactive _ _ ihBelow ihNext =>
      have hturn := accounted_turn (fun _ => own_update (m := m) (w := w) hactive)
        (fun _ _ => ihBelow) h
      rw [Effect.writes_append, Effect.writes_append, Effect.writes_map, Write.applyAll_append]
      exact ihNext hturn
  | @finish before after n result inner outer hactive _ _ ihBelow ihNext =>
      have hturn := accounted_turn (fun _ => own_finish hactive) (fun _ _ => ihBelow) h
      rw [Effect.writes_append, Effect.writes_append, Effect.writes_append, Effect.writes_map,
        Effect.writes_event, Write.applyAll_append]
      simpa [Effect.writes] using ihNext hturn

/-- What starts and ends keep is true of the headers after a course. -/
theorem Course.forall_header {P : Header → Prop} (hopened : ∀ h, P h → P h.opened)
    (hclosed : ∀ h, P h → P h.closed) {nodes result : List Node} {effects : List Effect}
    (course : Course m w nodes effects result)
    (h : ∀ n ∈ nodes.flatMap preorder, P n.header) :
    ∀ n ∈ result.flatMap preorder, P n.header := by
  induction course with
  | done nodes => exact h
  | start before after hrest _ _ ihBelow ihNext =>
      obtain ⟨hn, hbelow, hothers⟩ := forall_preorder_split.mp h
      refine ihNext (forall_preorder_split.mpr ⟨?_, ihBelow hbelow, hothers⟩)
      rw [start_header]
      exact hopened _ hn
  | update before after hactive _ _ ihBelow ihNext =>
      obtain ⟨hn, hbelow, hothers⟩ := forall_preorder_split.mp h
      refine ihNext (forall_preorder_split.mpr ⟨?_, ihBelow hbelow, hothers⟩)
      rwa [update_header]
  | finish before after hactive _ _ ihBelow ihNext =>
      obtain ⟨hn, hbelow, hothers⟩ := forall_preorder_split.mp h
      refine ihNext (forall_preorder_split.mpr ⟨?_, ihBelow hbelow, hothers⟩)
      rw [finish_header hactive]
      exact hclosed _ hn

end Node

end Choreo
