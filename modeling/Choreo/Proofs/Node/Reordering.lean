import Choreo.Proofs.Node.Transparency

/-!
# Reordering the children of a parallel

The children of a parallel that write to different fields can be put in another order without anyone
seeing it. A node is found in a tree by a path of places, and what is done to it is brought up to the
root one step at a time.
-/

namespace Choreo

/-- The members of a list at the given places. -/
def pick {α : Type} (order : List Nat) (xs : List α) : List α := order.filterMap fun i => xs[i]?

theorem pick_map {α β : Type} (order : List Nat) (f : α → β) (xs : List α) :
    pick order (xs.map f) = (pick order xs).map f := by
  rw [pick, pick, List.map_filterMap]
  exact List.filterMap_congr fun i _ => List.getElem?_map

theorem pick_range {α : Type} (xs : List α) : pick (List.range xs.length) xs = xs := by
  induction xs with
  | nil => rfl
  | cons x rest ih =>
      have hhead : (x :: rest)[0]? = some x := rfl
      rw [pick, List.length_cons, List.range_succ_eq_map, List.filterMap_cons_some hhead,
        List.filterMap_map]
      exact congrArg (x :: ·) ih

theorem pick_perm {α : Type} {order : List Nat} {xs : List α}
    (horder : order.Perm (List.range xs.length)) : (pick order xs).Perm xs := by
  have hpick : (pick order xs).Perm (pick (List.range xs.length) xs) := horder.filterMap _
  rwa [pick_range] at hpick

namespace Node

/-- The children of a parallel in another order, and its flags with them. -/
def permute (order : List Nat) : Node → Node
  | parallel h children running => parallel h (pick order children) (pick order running)
  | n => n

/-- The node that is found by going down to one child after another. -/
def at? : List Nat → Node → Option Node
  | [], n => some n
  | i :: path, n => n.children[i]?.bind (at? path)

/-- Puts the children of the parallel at the end of the path in another order. -/
def reorder (order : List Nat) : List Nat → Node → Node
  | [] => permute order
  | i :: path => onChild i (reorder order path)

/-! ### At the parallel itself -/

/-- If the node is a parallel, then its children write different fields, and each has one place in the
order. -/
structure Permutable (order : List Nat) (n : Node) : Prop where
  sound : n.Sound
  apart : n.kind = .parallel → n.children.Pairwise Apart
  order : n.kind = .parallel → order.Perm (List.range n.children.length)

variable {order : List Nat} {n : Node} {nodes : List Node}

theorem Inner.permute (order : List Nat) : Inner (permute order) where
  header n := by cases n <;> rfl
  withHeader n h := by cases n <;> rfl

theorem exists_parallel (hkind : n.kind = .parallel) :
    ∃ h nodes running, n = .parallel h nodes running := by
  cases n with
  | leaf h a => cases a <;> cases hkind
  | parallel h nodes running => exact ⟨h, nodes, running, rfl⟩
  | _ => cases hkind

theorem permute_other (hkind : n.kind ≠ .parallel) : n.permute order = n := by
  cases n with
  | parallel h nodes running => exact absurd rfl hkind
  | _ => rfl

theorem through_other {result : Node × List Effect} (hkind : result.1.kind ≠ .parallel)
    (hsound : result.1.Sound) :
    Through (Permutable order) (permute order) result result := by
  refine .same ⟨hsound, ?_, ?_⟩ (permute_other hkind).symm
  · exact fun h => absurd h hkind
  · exact fun h => absurd h hkind

/-- The turns of the children are alike in any order. -/
theorem alike_pick (turn : Node → Node × List Effect) (hapart : nodes.Pairwise Apart)
    (horder : order.Perm (List.range nodes.length)) (hkeeps : ∀ n ∈ nodes, n.Keeps (turn n)) :
    (nodes.map fun n => (turn n).1).Pairwise Apart ∧
      order.Perm (List.range (nodes.map fun n => (turn n).1).length) ∧
      Alike (nodes.flatMap fun n => (turn n).2) ((pick order nodes).flatMap fun n => (turn n).2) := by
  refine ⟨?_, ?_, ?_⟩
  · rw [List.pairwise_map]
    refine hapart.imp_of_mem fun {n k} hn hk h => ?_
    rw [Apart, (hkeeps n hn).writeSet, (hkeeps k hk).writeSet]
    exact h
  · rwa [List.length_map]
  · exact alike_flatMap (pick_perm horder).symm hapart fun n hn => (hkeeps n hn).confined

theorem keeps_finish {n : Node} (hsound : n.Sound) : n.Keeps n.finish := by
  rcases finish_proceeds (m := ⟨0, 0⟩) (w := {}) hsound with hrest | hproceeds
  · rw [hrest]
    exact keeps_rest hsound
  · exact hproceeds.keeps

theorem keeps_advance {n : Node} (hsound : n.Sound) (m : Moment) (w : Surroundings) :
    n.Keeps (n.advance m w) := by
  rcases advance_proceeds (m := m) (w := w) hsound with hrest | hproceeds
  · rw [hrest]
    exact keeps_rest hsound
  · exact hproceeds.keeps

theorem Permutable.hasStopped (h : n.Permutable order) (w : Surroundings) :
    (n.permute order).hasStopped w = n.hasStopped w := by
  refine (Inner.permute order).hasStopped w fun hlive => ?_
  cases n with
  | parallel header nodes running =>
      have htidy := h.sound.tidy hlive
      obtain rfl : running = nodes.map (·.header.active) := htidy
      have horder : order.Perm (List.range (nodes.map (·.header.active)).length) := by
        rw [List.length_map]
        exact h.order rfl
      exact (pick_perm horder).all_eq
  | _ => rfl

theorem Permutable.start (h : n.Permutable order) (w : Surroundings)
    (hrest : n.header.active = false) :
    Through (Permutable order) (Node.permute order) (n.start w) ((n.permute order).start w) := by
  have hafter : (n.start w).1.Sound := sound_start h.sound hrest
  by_cases hkind : n.kind = .parallel
  · cases hlive : n.header.opened.live with
    | false =>
        rw [(Inner.permute order).start_of_not_live w hlive]
        refine .same ⟨hafter, ?_, ?_⟩ rfl
        · rw [start_of_not_live w hlive, withHeader_children]
          exact fun _ => h.apart hkind
        · rw [start_of_not_live w hlive, withHeader_children]
          exact fun _ => h.order hkind
    | true =>
        obtain ⟨header, nodes, running, rfl⟩ := exists_parallel hkind
        have hkeeps : ∀ n ∈ nodes, n.Keeps (n.start w) := by
          intro n hn
          have hproceeds := (h.sound.children n hn).operable.start (m := ⟨0, 0⟩) (w := w)
            (h.sound.children_rest hrest n hn)
          exact hproceeds.keeps
        obtain ⟨hapart, horder, halike⟩ :=
          alike_pick (fun n => n.start w) (h.apart rfl) (h.order rfl) hkeeps
        rw [start_parallel w header hlive] at hafter
        rw [Node.permute, start_parallel w header hlive, start_parallel w header hlive]
        refine ⟨⟨hafter, fun _ => hapart, fun _ => horder⟩, ?_, halike.cons _⟩
        rw [Node.permute, pick_map, pick_map]
  · rw [permute_other hkind]
    exact through_other (by rwa [start_kind]) hafter

theorem Permutable.update (h : n.Permutable order) (m : Moment) (w : Surroundings)
    (hactive : n.header.active = true) :
    Through (Permutable order) (Node.permute order) (n.update m w) ((n.permute order).update m w) := by
  have hafter : (n.update m w).1.Sound := (h.sound.operable.update hactive).sound
  by_cases hkind : n.kind = .parallel
  · cases hlive : n.header.live with
    | false =>
        rw [(Inner.permute order).update_of_not_live m w hlive, update_of_not_live m w hlive]
        exact .same h rfl
    | true =>
        have htidy := h.sound.tidy hlive
        obtain ⟨header, nodes, running, rfl⟩ := exists_parallel hkind
        obtain rfl : running = nodes.map (·.header.active) := htidy
        have hkeeps : ∀ n ∈ nodes, n.Keeps (n.advance m w) :=
          fun n hn => keeps_advance (h.sound.children n hn) m w
        obtain ⟨hapart, horder, halike⟩ :=
          alike_pick (fun n => n.advance m w) (h.apart rfl) (h.order rfl) hkeeps
        rw [update_parallel m w header hlive, updateRunning_tidy] at hafter
        rw [Node.permute, update_parallel m w header hlive, update_parallel m w header hlive,
          pick_map, updateRunning_tidy, updateRunning_tidy]
        refine ⟨⟨hafter, fun _ => hapart, fun _ => horder⟩, ?_, halike⟩
        rw [Node.permute, pick_map, pick_map, pick_map]
  · rw [permute_other hkind]
    exact through_other (by rwa [update_kind]) hafter

theorem Permutable.finish (h : n.Permutable order) :
    Through (Permutable order) (Node.permute order) n.finish (n.permute order).finish := by
  have hafter : n.finish.1.Sound := (local_finish h.sound).sound
  cases hactive : n.header.active with
  | false =>
      have hactive' : (n.permute order).header.active = false := by rwa [(Inner.permute order).header]
      rw [finish_of_not_active hactive, finish_of_not_active hactive']
      exact .same h rfl
  | true =>
    by_cases hkind : n.kind = .parallel
    · cases hlive : n.header.live with
      | false =>
          rw [(Inner.permute order).finish_of_not_live hlive]
          refine .same ⟨hafter, ?_, ?_⟩ rfl
          · rw [finish_of_not_live hactive hlive, withHeader_children]
            exact fun _ => h.apart hkind
          · rw [finish_of_not_live hactive hlive, withHeader_children]
            exact fun _ => h.order hkind
      | true =>
          have htidy := h.sound.tidy hlive
          obtain ⟨header, nodes, running, rfl⟩ := exists_parallel hkind
          obtain rfl : running = nodes.map (·.header.active) := htidy
          have hkeeps : ∀ n ∈ nodes, n.Keeps n.finish :=
            fun n hn => keeps_finish (h.sound.children n hn)
          obtain ⟨hapart, horder, halike⟩ :=
            alike_pick Node.finish (h.apart rfl) (h.order rfl) hkeeps
          rw [finish_parallel header hactive hlive, finishRunning_tidy] at hafter
          rw [Node.permute, finish_parallel header hactive hlive,
            finish_parallel header hactive hlive, pick_map, finishRunning_tidy,
            finishRunning_tidy]
          refine ⟨⟨hafter, fun _ => hapart, fun _ => horder⟩, ?_, halike.append (.refl _)⟩
          rw [Node.permute, pick_map, pick_map, pick_map]
    · rw [permute_other hkind]
      exact through_other (by rwa [finish_kind hactive]) hafter

theorem transparent_permute (order : List Nat) :
    Transparent (Permutable order) (permute order) where
  toInner := .permute order
  hasStopped w h := h.hasStopped w
  start w h hrest := h.start w hrest
  update m w h hactive := h.update m w hactive
  finish h := h.finish

/-! ### From the parallel to the root -/

/-- Sound along the path, and permutable at its end. -/
def Reorderable (order : List Nat) : List Nat → Node → Prop
  | [] => Permutable order
  | i :: path => FitChild i (Reorderable order path)

theorem transparent_reorder (order path : List Nat) :
    Transparent (Reorderable order path) (reorder order path) := by
  induction path with
  | nil => exact transparent_permute order
  | cons i path ih => exact ih.onChild i

/-- A sound tree can be reordered at a parallel whose children write different fields. -/
theorem reorderable_of_at? {path : List Nat} {h : Header} {running : List Bool} (hsound : n.Sound)
    (hat : n.at? path = some (.parallel h nodes running)) (hapart : nodes.Pairwise Apart)
    (horder : order.Perm (List.range nodes.length)) : n.Reorderable order path := by
  induction path generalizing n with
  | nil =>
      obtain rfl : n = .parallel h nodes running := Option.some.inj hat
      exact ⟨hsound, fun _ => hapart, fun _ => horder⟩
  | cons i path ih =>
      refine ⟨hsound, fun c hc => ih (hsound.children c (List.mem_of_getElem? hc)) ?_⟩
      rw [at?, Option.mem_def.mp hc] at hat
      exact hat

end Node

end Choreo
