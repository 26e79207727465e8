import Choreo.Proofs.Node.Numbering
import Choreo.Proofs.Windows
import Mathlib.Data.List.Nodup

/-!
# The windows of a course

The active nodes of a forest are the ones whose windows are open. A course of a sound forest with
distinct numbers unfolds from its active nodes before to its active nodes after, and stays nested in
the tree all the way: this is the induction that pairs every start with its end and puts every window
inside that of the parent.
-/

namespace Choreo.Node

def opened (nodes : List Node) : Set Nat :=
  {i | ∃ k ∈ nodes.flatMap preorder, k.header.active = true ∧ k.id = i}

theorem flatMap_ids (nodes : List Node) :
    nodes.flatMap ids = (nodes.flatMap preorder).map id := by
  rw [List.map_flatMap]
  rfl

theorem mem_ids_of_mem_opened {nodes : List Node} {i : Nat} (hi : i ∈ opened nodes) :
    i ∈ nodes.flatMap ids := by
  obtain ⟨k, hk, _, rfl⟩ := hi
  rw [flatMap_ids]
  exact List.mem_map_of_mem hk

theorem mem_preorder_of_mem_children {n p c : Node} (hp : p ∈ n.preorder) (hc : c ∈ p.children) :
    c ∈ n.preorder := by
  induction n with
  | node n ih =>
      rw [preorder_eq] at hp ⊢
      rcases List.mem_cons.mp hp with rfl | hp
      · refine List.mem_cons_of_mem _ (List.mem_flatMap.mpr ⟨c, hc, ?_⟩)
        rw [preorder_eq]
        exact List.mem_cons_self
      · obtain ⟨k, hk, hp⟩ := List.mem_flatMap.mp hp
        exact List.mem_cons_of_mem _ (List.mem_flatMap.mpr ⟨k, hk, ih k hk hp⟩)

theorem id_mem_ids (n : Node) : n.id ∈ n.ids := by
  rw [ids_eq]
  exact List.mem_cons_self

theorem mem_ids_of_mem_below {n : Node} {i : Nat} (hi : i ∈ n.children.flatMap ids) :
    i ∈ n.ids := by
  rw [ids_eq]
  exact List.mem_cons_of_mem _ hi

theorem nodup_below {n : Node} (hids : n.ids.Nodup) :
    n.id ∉ n.children.flatMap ids ∧ (n.children.flatMap ids).Nodup := by
  rwa [ids_eq, List.nodup_cons] at hids

theorem mem_ids_of_mem_edges {n : Node} {e : Nat × Nat} (he : e ∈ n.edges) :
    e.1 ∈ n.ids ∧ e.2 ∈ n.children.flatMap ids := by
  induction n with
  | node n ih =>
      rw [edges_eq] at he
      rw [ids_eq]
      rcases List.mem_append.mp he with he | he
      · obtain ⟨c, hc, rfl⟩ := List.mem_map.mp he
        exact ⟨List.mem_cons_self, List.mem_flatMap.mpr ⟨c, hc, c.id_mem_ids⟩⟩
      · obtain ⟨c, hc, he⟩ := List.mem_flatMap.mp he
        obtain ⟨hparent, hchild⟩ := ih c hc he
        exact ⟨List.mem_cons_of_mem _ (List.mem_flatMap.mpr ⟨c, hc, hparent⟩),
          List.mem_flatMap.mpr ⟨c, hc, mem_ids_of_mem_below hchild⟩⟩

theorem eq_id_or_mem_edges {n : Node} {i : Nat} (hi : i ∈ n.ids) :
    i = n.id ∨ ∃ p, (p, i) ∈ n.edges := by
  induction n with
  | node n ih =>
      rw [ids_eq] at hi
      rcases List.mem_cons.mp hi with rfl | hi
      · exact Or.inl rfl
      obtain ⟨c, hc, hi⟩ := List.mem_flatMap.mp hi
      right
      rw [edges_eq]
      rcases ih c hc hi with rfl | ⟨p, hp⟩
      · exact ⟨n.id, List.mem_append_left _ (List.mem_map_of_mem hc)⟩
      · exact ⟨p, List.mem_append_right _ (List.mem_flatMap.mpr ⟨c, hc, hp⟩)⟩

theorem not_active_of_mem_preorder {n k : Node} (hsound : n.Sound)
    (hrest : n.header.active = false) (hk : k ∈ n.preorder) : k.header.active = false := by
  induction n with
  | node n ih =>
      rw [preorder_eq] at hk
      rcases List.mem_cons.mp hk with rfl | hk
      · exact hrest
      · obtain ⟨c, hc, hk⟩ := List.mem_flatMap.mp hk
        exact ih c hc (hsound.children c hc) (hsound.children_rest hrest c hc) hk

theorem opened_of_rest {nodes : List Node} (hsound : ∀ n ∈ nodes, n.Sound)
    (hrest : ∀ n ∈ nodes, n.header.active = false) : opened nodes = ∅ := by
  rw [Set.eq_empty_iff_forall_notMem]
  rintro i ⟨k, hk, hactive, _⟩
  obtain ⟨n, hn, hk⟩ := List.mem_flatMap.mp hk
  rw [not_active_of_mem_preorder (hsound n hn) (hrest n hn) hk] at hactive
  simp at hactive

theorem opened_append (left right : List Node) :
    opened (left ++ right) = opened left ∪ opened right := by
  ext i
  simp only [opened, List.flatMap_append, List.mem_append, Set.mem_ofPred_eq, Set.mem_union]
  constructor
  · rintro ⟨k, hk | hk, h⟩
    · exact Or.inl ⟨k, hk, h⟩
    · exact Or.inr ⟨k, hk, h⟩
  · rintro (⟨k, hk, h⟩ | ⟨k, hk, h⟩)
    · exact ⟨k, Or.inl hk, h⟩
    · exact ⟨k, Or.inr hk, h⟩

theorem opened_of_active {n : Node} (hactive : n.header.active = true) :
    opened [n] = {n.id} ∪ opened n.children := by
  ext i
  simp only [opened, List.flatMap_singleton, Set.mem_ofPred_eq, Set.mem_union,
    Set.mem_singleton_iff]
  rw [preorder_eq]
  constructor
  · rintro ⟨k, hk, h⟩
    rcases List.mem_cons.mp hk with rfl | hk
    · exact Or.inl h.2.symm
    · exact Or.inr ⟨k, hk, h⟩
  · rintro (rfl | ⟨k, hk, h⟩)
    · exact ⟨n, List.mem_cons_self, hactive, rfl⟩
    · exact ⟨k, List.mem_cons_of_mem _ hk, h⟩

/-- In a sound forest an active node has an active parent. -/
theorem nested_opened {nodes : List Node} (hsound : ∀ n ∈ nodes, n.Sound)
    (hids : (nodes.flatMap ids).Nodup) : Nested (nodes.flatMap edges) (opened nodes) := by
  rintro ⟨p, c⟩ he ⟨k, hk, hactive, hid⟩
  obtain ⟨n, hn, he⟩ := List.mem_flatMap.mp he
  obtain ⟨parent, hparent, he⟩ := List.mem_flatMap.mp he
  obtain ⟨child, hchild, heq⟩ := List.mem_map.mp he
  obtain ⟨rfl, rfl⟩ := Prod.mk.injEq .. ▸ heq
  have hmem : child ∈ nodes.flatMap preorder :=
    List.mem_flatMap.mpr ⟨n, hn, mem_preorder_of_mem_children hparent hchild⟩
  rw [flatMap_ids] at hids
  obtain rfl : k = child := List.inj_on_of_nodup_map hids hk hmem hid
  have hupright : parent.Upright := hsound n hn parent hparent
  have hlive : parent.header.live = true := by
    by_contra hlive
    have hrest := hupright.children_rest (by simpa using hlive) k hchild
    rw [hactive] at hrest
    simp at hrest
  exact ⟨parent, List.mem_flatMap.mpr ⟨n, hn, hparent⟩, hupright.active_of_live hlive, rfl⟩

/-! ### One turn

`before` and `after` are the rest of the forest, which the turn leaves alone. -/

variable {m : Moment} {w : Surroundings}

theorem mem_split {α : Type} {f : Node → List α} {before after : List Node} {n : Node} {x : α} :
    x ∈ (before ++ n :: after).flatMap f ↔ x ∈ f n ∨ x ∈ (before ++ after).flatMap f := by
  simp only [List.flatMap_append, List.flatMap_cons, List.mem_append]
  tauto

theorem opened_split (before after : List Node) (n : Node) :
    opened (before ++ n :: after) = opened (before ++ after) ∪ opened [n] := by
  rw [← List.singleton_append, opened_append, opened_append, opened_append, Set.union_assoc,
    Set.union_comm (opened [n])]

theorem nodup_split {before after : List Node} {n : Node}
    (hids : ((before ++ n :: after).flatMap ids).Nodup) :
    n.ids.Nodup ∧ ((before ++ after).flatMap ids).Nodup ∧
      ∀ i ∈ n.ids, i ∉ (before ++ after).flatMap ids := by
  simp only [List.flatMap_append, List.flatMap_cons] at hids
  have hperm : (n.ids ++ (before ++ after).flatMap ids).Nodup := by
    refine (List.Perm.nodup_iff ?_).mp hids
    rw [List.flatMap_append, ← List.append_assoc, ← List.append_assoc]
    exact List.perm_append_comm.append_right _
  obtain ⟨hn, hrest, hdisjoint⟩ := List.nodup_append.mp hperm
  exact ⟨hn, hrest, fun i hi hrest => hdisjoint i hi i hrest rfl⟩

/-- A turn that unfolds in its own tree unfolds in the forest. -/
theorem unfolds_split {before after : List Node} {n : Node} {trace : List Happening}
    {final : Set Nat} (hsound : ∀ k ∈ before ++ n :: after, k.Sound)
    (hids : ((before ++ n :: after).flatMap ids).Nodup)
    (h : Unfolds {i | i ∈ n.ids} (Nested n.edges) (opened [n]) trace final) :
    Unfolds {i | i ∈ (before ++ n :: after).flatMap ids}
      (Nested ((before ++ n :: after).flatMap edges)) (opened (before ++ n :: after)) trace
      (opened (before ++ after) ∪ final) := by
  obtain ⟨_, hrestIds, hdisjoint⟩ := nodup_split hids
  have hrestSound : ∀ k ∈ before ++ after, k.Sound := by
    intro k hk
    refine hsound k ?_
    rcases List.mem_append.mp hk with hk | hk <;> simp [hk]
  have hnested := nested_opened hrestSound hrestIds
  rw [opened_split]
  refine h.frame ?_ ?_ ?_ ?_
  · intro i hi
    simpa using mem_ids_of_mem_opened hi
  · intro i hi
    exact mem_split.mpr (Or.inl hi)
  · exact fun i hrest hi => hdisjoint i hi (mem_ids_of_mem_opened hrest)
  · intro q hq hlegal e he hchild
    rcases mem_split.mp he with he | he
    · have hmem : e.2 ∈ n.ids := mem_ids_of_mem_below (mem_ids_of_mem_edges he).2
      have hnot : e.2 ∉ opened (before ++ after) := fun hrest =>
        hdisjoint _ hmem (mem_ids_of_mem_opened hrest)
      exact Or.inr (hlegal e he (hchild.resolve_left hnot))
    · have hmem : e.2 ∈ (before ++ after).flatMap ids := by
        obtain ⟨k, hk, he⟩ := List.mem_flatMap.mp he
        exact List.mem_flatMap.mpr ⟨k, hk, mem_ids_of_mem_below (mem_ids_of_mem_edges he).2⟩
      have hnot : e.2 ∉ q := fun hq' => hdisjoint _ (hq hq') hmem
      exact Or.inl (hnested e he (hchild.resolve_right hnot))

/-- The course of the children unfolds in the tree while the node itself is open. -/
theorem unfolds_below {n : Node} {trace : List Happening} {before after : Set Nat}
    (hids : n.ids.Nodup) (hbefore : before ⊆ {i | i ∈ n.children.flatMap ids})
    (h : Unfolds {i | i ∈ n.children.flatMap ids} (Nested (n.children.flatMap edges)) before trace
      after) :
    Unfolds {i | i ∈ n.ids} (Nested n.edges) ({n.id} ∪ before) trace ({n.id} ∪ after) := by
  refine h.frame hbefore ?_ ?_ ?_
  · exact fun i hi => mem_ids_of_mem_below hi
  · rintro _ rfl
    exact (nodup_below hids).1
  · intro q hq hlegal e he hchild
    rw [edges_eq] at he
    rcases List.mem_append.mp he with he | he
    · obtain ⟨c, _, rfl⟩ := List.mem_map.mp he
      exact Or.inl rfl
    · have hmem : e.2 ∈ n.children.flatMap ids := by
        obtain ⟨c, hc, he⟩ := List.mem_flatMap.mp he
        exact List.mem_flatMap.mpr ⟨c, hc, mem_ids_of_mem_below (mem_ids_of_mem_edges he).2⟩
      have hne : e.2 ∉ ({n.id} : Set Nat) := by
        rintro heq
        exact (nodup_below hids).1 (heq ▸ hmem)
      exact Or.inr (hlegal e he (hchild.resolve_left hne))

theorem edges_irreflexive {n : Node} (hids : n.ids.Nodup) {e : Nat × Nat} (he : e ∈ n.edges) :
    e.1 ≠ e.2 := by
  induction n with
  | node n ih =>
      obtain ⟨hself, hbelow⟩ := nodup_below hids
      have hchild := (mem_ids_of_mem_edges he).2
      rw [edges_eq] at he
      rcases List.mem_append.mp he with he | he
      · obtain ⟨c, _, rfl⟩ := List.mem_map.mp he
        intro heq
        have heq : n.id = c.id := heq
        exact hself (by rwa [heq])
      · obtain ⟨c, hc, he⟩ := List.mem_flatMap.mp he
        refine ih c hc ?_ he
        exact (List.nodup_flatMap.mp hbelow).1 c hc

/-! ### Whole courses -/

theorem happenings_append (first second : List Effect) :
    Effect.happenings (first ++ second) = Effect.happenings first ++ Effect.happenings second := by
  simp [Effect.happenings]

@[simp]
theorem happenings_writes (writes : List Write) :
    Effect.happenings (writes.map .write) = [] := by
  simp [Effect.happenings, List.filterMap_map, Function.comp_def, Effect.happening?]

@[simp]
theorem happenings_events (happenings : List Happening) :
    Effect.happenings (happenings.map .event) = happenings := by
  simp [Effect.happenings, List.filterMap_map, Function.comp_def, Effect.happening?]

theorem Course.unclosed {nodes result : List Node} {effects : List Effect}
    (course : Course m w nodes effects result) : Unclosed (Effect.happenings effects) := by
  have hnil : Unclosed [] := ⟨by simp, by simp⟩
  induction course with
  | done nodes => exact hnil
  | start before after hrest _ _ ihBelow ihNext =>
      rw [happenings_append, happenings_append]
      refine (Unclosed.append ?_ ihBelow).append ihNext
      rw [← List.singleton_append, happenings_append, happenings_writes]
      simp [Unclosed, Effect.happenings, Effect.happening?]
  | update before after hactive _ _ ihBelow ihNext =>
      rw [happenings_append, happenings_append, happenings_writes]
      exact (hnil.append ihBelow).append ihNext
  | finish before after hactive _ _ ihBelow ihNext =>
      rw [happenings_append, happenings_append, happenings_append, happenings_writes]
      refine ((hnil.append ihBelow).append ?_).append ihNext
      simp [Unclosed, Effect.happenings, Effect.happening?]

/-- A tree that a turn has left with the same numbers and edges stands in the forest as before. -/
theorem Course.map_edges_eq {nodes result : List Node} {effects : List Effect}
    (course : Course m w nodes effects result) : result.map edges = nodes.map edges := by
  have hpairs : result.map (fun n => (n.id, n.edges)) = nodes.map fun n => (n.id, n.edges) := by
    refine course.map_eq _ fun n k _ hheader hchildren => ?_
    have hid : n.id = k.id := show n.header.closed.id = k.header.closed.id by rw [hheader]
    have hedges := congrArg (List.map Prod.snd) hchildren
    have hids := congrArg (List.map fun pair : Nat × List (Nat × Nat) => (n.id, pair.1)) hchildren
    simp only [List.map_map, Function.comp_def] at hedges hids
    rw [edges_eq, edges_eq, List.flatMap_def, List.flatMap_def, hedges, ← hid, hids]
  simpa [List.map_map, Function.comp_def] using congrArg (List.map Prod.snd) hpairs

theorem unfolds_turn {before after : List Node} {n : Node} {result : Node × List Effect}
    {turn outer : List Effect} {final : Set Nat} (hsound : ∀ k ∈ before ++ n :: after, k.Sound)
    (hids : ((before ++ n :: after).flatMap ids).Nodup) (hproceeds : Proceeds m w n result)
    (hturn : Unfolds {i | i ∈ n.ids} (Nested n.edges) (opened [n]) (Effect.happenings turn)
      (opened [result.1]))
    (hnext : (∀ k ∈ before ++ result.1 :: after, k.Sound) →
      ((before ++ result.1 :: after).flatMap ids).Nodup →
      Unfolds {i | i ∈ (before ++ result.1 :: after).flatMap ids}
        (Nested ((before ++ result.1 :: after).flatMap edges))
        (opened (before ++ result.1 :: after)) (Effect.happenings outer) final) :
    Unfolds {i | i ∈ (before ++ n :: after).flatMap ids}
      (Nested ((before ++ n :: after).flatMap edges)) (opened (before ++ n :: after))
      (Effect.happenings (turn ++ outer)) final := by
  have hidsEq :
      (before ++ result.1 :: after).flatMap ids = (before ++ n :: after).flatMap ids := by
    have hresult : result.1.ids = n.ids := by simpa using hproceeds.course.map_ids_eq
    simp only [List.flatMap_append, List.flatMap_cons, hresult]
  have hedgesEq :
      (before ++ result.1 :: after).flatMap edges = (before ++ n :: after).flatMap edges := by
    have hresult : result.1.edges = n.edges := by simpa using hproceeds.course.map_edges_eq
    simp only [List.flatMap_append, List.flatMap_cons, hresult]
  have hsoundAfter : ∀ k ∈ before ++ result.1 :: after, k.Sound := by
    intro k hk
    rcases List.mem_append.mp hk with hk | hk
    · exact hsound k (by simp [hk])
    rcases List.mem_cons.mp hk with rfl | hk
    · exact hproceeds.sound
    · exact hsound k (by simp [hk])
  have hrest := hnext hsoundAfter (by rwa [hidsEq])
  rw [hidsEq, hedgesEq, opened_split] at hrest
  rw [happenings_append]
  exact (unfolds_split hsound hids hturn).append hrest

section Turn

variable {n : Node} {inner : List Effect} (hids : n.ids.Nodup)
include hids

theorem unfolds_start (hsound : n.Sound) (hrest : n.header.active = false) {next : Node}
    (hnext : next.header.active = true) (hid : next.id = n.id) (writes : List Write)
    (below : Unfolds {i | i ∈ n.children.flatMap ids} (Nested (n.children.flatMap edges))
      (opened n.children) (Effect.happenings inner) (opened next.children)) :
    Unfolds {i | i ∈ n.ids} (Nested n.edges) (opened [n])
      (Effect.happenings (.event (.started n.id) :: writes.map .write ++ inner))
      (opened [next]) := by
  have hnone : opened [n] = ∅ := opened_of_rest (by simpa using hsound) (by simpa using hrest)
  have hchildren : opened n.children = ∅ :=
    opened_of_rest hsound.children (hsound.children_rest hrest)
  have hinner := unfolds_below hids (by simp [hchildren]) below
  rw [hchildren, ← hid, ← opened_of_active hnext] at hinner
  have htrace : Effect.happenings (.event (.started n.id) :: writes.map .write ++ inner) =
      .started n.id :: Effect.happenings inner := by
    rw [List.cons_append, ← List.singleton_append, happenings_append, happenings_append,
      happenings_writes]
    rfl
  rw [hnone, htrace]
  refine .started n.id_mem_ids (by simp) ?_ (by simpa [hid] using hinner)
  intro e he hchild
  have hmem := (mem_ids_of_mem_edges he).2
  have hself : e.2 = n.id := by simpa using hchild
  exact absurd (hself ▸ hmem) (nodup_below hids).1

theorem unfolds_update (hactive : n.header.active = true) {next : Node}
    (hnext : next.header.active = true) (hid : next.id = n.id) (writes : List Write)
    (below : Unfolds {i | i ∈ n.children.flatMap ids} (Nested (n.children.flatMap edges))
      (opened n.children) (Effect.happenings inner) (opened next.children)) :
    Unfolds {i | i ∈ n.ids} (Nested n.edges) (opened [n])
      (Effect.happenings (writes.map .write ++ inner)) (opened [next]) := by
  have hinner := unfolds_below hids (fun i hi => mem_ids_of_mem_opened hi) below
  rw [opened_of_active hactive, opened_of_active hnext, hid, happenings_append,
    happenings_writes]
  exact hinner

theorem unfolds_finish (hactive : n.header.active = true) {next : Node} (hnextSound : next.Sound)
    (hnext : next.header.active = false) (writes : List Write)
    (below : Unfolds {i | i ∈ n.children.flatMap ids} (Nested (n.children.flatMap edges))
      (opened n.children) (Effect.happenings inner) (opened next.children)) :
    Unfolds {i | i ∈ n.ids} (Nested n.edges) (opened [n])
      (Effect.happenings (writes.map .write ++ inner ++ [.event (.ended n.id)]))
      (opened [next]) := by
  have hnone : opened [next] = ∅ :=
    opened_of_rest (by simpa using hnextSound) (by simpa using hnext)
  have hchildren : opened next.children = ∅ :=
    opened_of_rest hnextSound.children (hnextSound.children_rest hnext)
  have hinner := unfolds_below hids (fun i hi => mem_ids_of_mem_opened hi) below
  rw [hchildren, Set.union_empty] at hinner
  rw [opened_of_active hactive, hnone, happenings_append, happenings_append, happenings_writes]
  refine hinner.append (.ended n.id_mem_ids (by simp) ?_ ?_)
  · intro e _ hchild
    simp at hchild
  · have hclosed : ({n.id} : Set Nat) \ {n.id} = ∅ := by ext i; simp
    rw [hclosed]
    exact .nil ∅

end Turn

/-- **Windows.** The course of a sound forest with distinct numbers leads from its active nodes to its
active nodes, and every set of open nodes on the way is nested in the forest. -/
theorem Course.unfolds {nodes result : List Node} {effects : List Effect}
    (course : Course m w nodes effects result) (hsound : ∀ n ∈ nodes, n.Sound)
    (hids : (nodes.flatMap ids).Nodup) :
    Unfolds {i | i ∈ nodes.flatMap ids} (Nested (nodes.flatMap edges)) (opened nodes)
      (Effect.happenings effects) (opened result) := by
  -- A turn is the node's own part around the course of its children.
  induction course with
  | done nodes => exact .nil _
  | @start before after n result inner outer hrest below next ihBelow ihNext =>
      have hn : n.Sound := hsound n (by simp)
      have hnIds := (nodup_split hids).1
      have hbelow := ihBelow hn.children (nodup_below hnIds).2
      have hturn := unfolds_start hnIds hn hrest (by simp [Header.opened]) (by simp [id]; rfl)
        (n.startWrites w) hbelow
      exact unfolds_turn hsound hids (hn.operable.start (m := m) (w := w) hrest) hturn ihNext
  | @update before after n result inner outer hactive below next ihBelow ihNext =>
      have hn : n.Sound := hsound n (by simp)
      have hnIds := (nodup_split hids).1
      have hbelow := ihBelow hn.children (nodup_below hnIds).2
      have hturn := unfolds_update hnIds hactive (by simpa using hactive) (by simp [id])
        (n.updateWrites m w) hbelow
      exact unfolds_turn hsound hids (hn.operable.update (m := m) (w := w) hactive) hturn ihNext
  | @finish before after n result inner outer hactive below next ihBelow ihNext =>
      have hn : n.Sound := hsound n (by simp)
      have hnIds := (nodup_split hids).1
      have hbelow := ihBelow hn.children (nodup_below hnIds).2
      have hproceeds := hn.operable.finish (m := m) (w := w) hactive
      have hturn := unfolds_finish hnIds hactive hproceeds.sound n.finish_not_active
        n.finishWrites hbelow
      exact unfolds_turn hsound hids hproceeds hturn ihNext

end Choreo.Node
