import Choreo.Proofs.Node.Turns
import Choreo.Node.Init

/-!
# Sound trees

A tree is sound if every node in it is upright: it is live only while it is active and without fault,
and its children are as its own record has them. Initialising makes a tree sound, and every operation
keeps it so.

On a sound tree an operation is a *course*: a series of turns in which each turn of a node consists of
the node's own part and a course of its children. A course can be taken apart by induction, which is
how everything about the events and writes of an operation is proved.
-/

namespace Choreo.Node

structure Upright (n : Node) : Prop where
  active_of_live : n.header.live = true → n.header.active = true
  fault_of_live : n.header.live = true → n.header.fault = none
  inOrder : n.InOrder

def Sound (n : Node) : Prop := ∀ k ∈ n.preorder, k.Upright

theorem sound_iff (n : Node) : n.Sound ↔ n.Upright ∧ ∀ c ∈ n.children, c.Sound := by
  rw [Sound, preorder_eq]
  simp only [List.mem_cons, List.mem_flatMap, forall_eq_or_imp, Sound]
  constructor
  · rintro ⟨hn, hbelow⟩
    exact ⟨hn, fun c hc k hk => hbelow k ⟨c, hc, hk⟩⟩
  · rintro ⟨hn, hbelow⟩
    exact ⟨hn, fun k ⟨c, hc, hk⟩ => hbelow c hc k hk⟩

theorem Sound.upright {n : Node} (hsound : n.Sound) : n.Upright := ((sound_iff n).mp hsound).1

theorem Sound.children {n : Node} (hsound : n.Sound) : ∀ c ∈ n.children, c.Sound :=
  ((sound_iff n).mp hsound).2

theorem Sound.of_mem_preorder {n k : Node} (hsound : n.Sound) (hk : k ∈ n.preorder) :
    k.Sound := by
  induction n with
  | node n ih =>
      rw [preorder_eq] at hk
      rcases List.mem_cons.mp hk with rfl | hk
      · exact hsound
      · obtain ⟨c, hc, hk⟩ := List.mem_flatMap.mp hk
        exact ih c hc (hsound.children c hc) hk

theorem Sound.live_of_not_active {n : Node} (hsound : n.Sound) (hrest : n.header.active = false) :
    n.header.live = false := by
  by_contra hlive
  have hactive := hsound.upright.active_of_live (by simpa using hlive)
  rw [hrest] at hactive
  simp at hactive

theorem Upright.children_rest {n : Node} (hupright : n.Upright) (hlive : n.header.live = false) :
    ∀ c ∈ n.children, c.header.active = false := by
  have horder := hupright.inOrder
  rwa [InOrder, if_neg (by simp [hlive])] at horder

theorem Sound.children_rest {n : Node} (hsound : n.Sound) (hrest : n.header.active = false) :
    ∀ c ∈ n.children, c.header.active = false :=
  hsound.upright.children_rest (hsound.live_of_not_active hrest)

theorem Sound.tidy {n : Node} (hsound : n.Sound) (hlive : n.header.live = true) : n.Tidy := by
  have horder := hsound.upright.inOrder
  rwa [InOrder, if_pos hlive] at horder

/-! ### Courses -/

/-- A series of turns, each of them with the course of the children below it. -/
inductive Course (m : Moment) (w : Surroundings) : List Node → List Effect → List Node → Prop
  | done (nodes : List Node) : Course m w nodes [] nodes
  | start (before after : List Node) {n : Node} {result : List Node} {inner outer : List Effect}
      (hrest : n.header.active = false)
      (below : Course m w n.children inner (n.start w).1.children)
      (next : Course m w (before ++ (n.start w).1 :: after) outer result) :
      Course m w (before ++ n :: after)
        (.event (.started n.id) :: (n.startWrites w).map .write ++ inner ++ outer) result
  | update (before after : List Node) {n : Node} {result : List Node} {inner outer : List Effect}
      (hactive : n.header.active = true)
      (below : Course m w n.children inner (n.update m w).1.children)
      (next : Course m w (before ++ (n.update m w).1 :: after) outer result) :
      Course m w (before ++ n :: after)
        ((n.updateWrites m w).map .write ++ inner ++ outer) result
  | finish (before after : List Node) {n : Node} {result : List Node} {inner outer : List Effect}
      (hactive : n.header.active = true)
      (below : Course m w n.children inner n.finish.1.children)
      (next : Course m w (before ++ n.finish.1 :: after) outer result) :
      Course m w (before ++ n :: after)
        (n.finishWrites.map .write ++ inner ++ [.event (.ended n.id)] ++ outer) result

variable {m : Moment} {w : Surroundings}

namespace Course

variable {nodes middle result : List Node} {effects more : List Effect}

theorem trans (first : Course m w nodes effects middle) (second : Course m w middle more result) :
    Course m w nodes (effects ++ more) result := by
  induction first with
  | done nodes => exact second
  | start before after hrest below _ _ ih =>
      simpa using Course.start before after hrest below (ih second)
  | update before after hactive below _ _ ih =>
      simpa using Course.update before after hactive below (ih second)
  | finish before after hactive below _ _ ih =>
      simpa using Course.finish before after hactive below (ih second)

theorem frame (left right : List Node) (course : Course m w nodes effects result) :
    Course m w (left ++ nodes ++ right) effects (left ++ result ++ right) := by
  induction course with
  | done nodes => exact .done _
  | start before after hrest below _ _ ih =>
      simpa using Course.start (left ++ before) (after ++ right) hrest below (by simpa using ih)
  | update before after hactive below _ _ ih =>
      simpa using Course.update (left ++ before) (after ++ right) hactive below (by simpa using ih)
  | finish before after hactive below _ _ ih =>
      simpa using Course.finish (left ++ before) (after ++ right) hactive below (by simpa using ih)

/-- What no turn of a node changes, if none of its children has changed it, is the same after a
course. -/
theorem map_eq_of_turns {α : Type} {f : Node → α}
    (hstart : ∀ n : Node, (n.start w).1.children.map f = n.children.map f → f (n.start w).1 = f n)
    (hupdate : ∀ n : Node,
      (n.update m w).1.children.map f = n.children.map f → f (n.update m w).1 = f n)
    (hfinish : ∀ n : Node, n.header.active = true →
      n.finish.1.children.map f = n.children.map f → f n.finish.1 = f n)
    (course : Course m w nodes effects result) : result.map f = nodes.map f := by
  induction course with
  | done nodes => rfl
  | start before after hrest _ _ ihBelow ihNext =>
      rw [ihNext, List.map_append, List.map_append, List.map_cons, List.map_cons, hstart _ ihBelow]
  | update before after hactive _ _ ihBelow ihNext =>
      rw [ihNext, List.map_append, List.map_append, List.map_cons, List.map_cons,
        hupdate _ ihBelow]
  | finish before after hactive _ _ ihBelow ihNext =>
      rw [ihNext, List.map_append, List.map_append, List.map_cons, List.map_cons,
        hfinish _ hactive ihBelow]

/-- What a tree shows apart from its run is the same after a course: any function that looks only at
the kinds, at the fixed parts of the headers, and at its own values on the children. -/
theorem map_eq {α : Type} (f : Node → α)
    (hf : ∀ n k : Node, n.kind = k.kind → n.header.closed = k.header.closed →
      n.children.map f = k.children.map f → f n = f k)
    (course : Course m w nodes effects result) : result.map f = nodes.map f := by
  refine course.map_eq_of_turns (fun n => ?_) (fun n => ?_) fun n hactive => ?_
  · exact hf _ _ (start_kind w n) (by rw [start_header]; rfl)
  · exact hf _ _ (update_kind m w n) (by rw [update_header])
  · exact hf _ _ (finish_kind hactive) (by rw [finish_header hactive]; rfl)

theorem map_size_eq (course : Course m w nodes effects result) :
    result.map size = nodes.map size :=
  course.map_eq size fun n k _ _ hchildren => by rw [size_eq, size_eq, hchildren]

theorem map_ids_eq (course : Course m w nodes effects result) : result.map ids = nodes.map ids :=
  course.map_eq ids ids_congr

end Course

/-! ### Operations are courses -/

/-- An operation is a course that leaves the tree sound. -/
structure Proceeds (m : Moment) (w : Surroundings) (n : Node) (result : Node × List Effect) :
    Prop where
  sound : result.1.Sound
  course : Course m w [n] result.2 [result.1]

structure Operable (m : Moment) (w : Surroundings) (n : Node) : Prop where
  start : n.header.active = false → Proceeds m w n (n.start w)
  update : n.header.active = true → Proceeds m w n (n.update m w)
  finish : n.header.active = true → Proceeds m w n n.finish

theorem Proceeds.size_eq {n : Node} {result : Node × List Effect}
    (h : Proceeds m w n result) : result.1.size = n.size := by
  simpa using h.course.map_size_eq

/-- Turns of sound nodes are a course, if the nodes are small enough to know that of them. -/
theorem Turns.course {nodes result : List Node} {effects : List Effect} {bound : Nat}
    (hoperable : ∀ n : Node, n.size < bound → n.Sound → Operable m w n)
    (turns : Turns m w nodes effects result)
    (hnodes : ∀ n ∈ nodes, n.size < bound ∧ n.Sound) :
    Course m w nodes effects result ∧ ∀ n ∈ result, n.Sound := by
  have hturn : ∀ (before after : List Node) (n : Node) (next : Node × List Effect),
      Proceeds m w n next → (∀ k ∈ before ++ n :: after, k.size < bound ∧ k.Sound) →
      ∀ k ∈ before ++ next.1 :: after, k.size < bound ∧ k.Sound := by
    intro before after n next hproceeds hall k hk
    rcases List.mem_append.mp hk with hk | hk
    · exact hall k (by simp [hk])
    rcases List.mem_cons.mp hk with rfl | hk
    · refine ⟨?_, hproceeds.sound⟩
      rw [hproceeds.size_eq]
      exact (hall n (by simp)).1
    · exact hall k (by simp [hk])
  have hchain : ∀ (before after result : List Node) (n : Node) (next : Node × List Effect)
      (effects : List Effect), Proceeds m w n next →
      Course m w (before ++ next.1 :: after) effects result →
      Course m w (before ++ n :: after) (next.2 ++ effects) result := by
    intro before after result n next effects hproceeds hcourse
    have hfirst := hproceeds.course.frame before after
    simp only [List.append_assoc, List.singleton_append] at hfirst
    exact hfirst.trans hcourse
  induction turns with
  | done nodes => exact ⟨.done nodes, fun n hn => (hnodes n hn).2⟩
  | start before after hrest _ ih =>
      obtain ⟨hsize, hsound⟩ := hnodes _ (List.mem_append_right _ List.mem_cons_self)
      have hproceeds := (hoperable _ hsize hsound).start hrest
      obtain ⟨hcourse, hresult⟩ := ih (hturn before after _ _ hproceeds hnodes)
      exact ⟨hchain before after _ _ _ _ hproceeds hcourse, hresult⟩
  | update before after hactive _ _ ih =>
      obtain ⟨hsize, hsound⟩ := hnodes _ (List.mem_append_right _ List.mem_cons_self)
      have hproceeds := (hoperable _ hsize hsound).update hactive
      obtain ⟨hcourse, hresult⟩ := ih (hturn before after _ _ hproceeds hnodes)
      exact ⟨hchain before after _ _ _ _ hproceeds hcourse, hresult⟩
  | finish before after hactive _ ih =>
      obtain ⟨hsize, hsound⟩ := hnodes _ (List.mem_append_right _ List.mem_cons_self)
      have hproceeds := (hoperable _ hsize hsound).finish hactive
      obtain ⟨hcourse, hresult⟩ := ih (hturn before after _ _ hproceeds hnodes)
      exact ⟨hchain before after _ _ _ _ hproceeds hcourse, hresult⟩

theorem Sound.operable {n : Node} (hsound : n.Sound) : Operable m w n := by
  induction hsize : n.size using Nat.strongRecOn generalizing n with
  | ind size ih =>
  have hoperable : ∀ c : Node, c.size < n.size → c.Sound → Operable m w c :=
    fun c hc hcSound => ih c.size (hsize ▸ hc) hcSound rfl
  have hchildren : ∀ c ∈ n.children, c.size < n.size ∧ c.Sound :=
    fun c hc => ⟨size_lt_of_mem_children hc, hsound.children c hc⟩
  constructor
  · intro hrest
    obtain ⟨effects, heffects, hturns, horder⟩ :=
      start_turns m w (hsound.children_rest hrest)
    obtain ⟨hcourse, hbelow⟩ := hturns.course hoperable hchildren
    refine ⟨(sound_iff _).mpr ⟨⟨?_, ?_, horder⟩, hbelow⟩, ?_⟩
    · simp [Header.opened]
    · simp [Header.opened]
    · rw [heffects]
      simpa using Course.start [] [] hrest hcourse (.done [(n.start w).1])
  · intro hactive
    obtain ⟨effects, heffects, hturns, horder⟩ := update_turns m w hsound.upright.inOrder
    obtain ⟨hcourse, hbelow⟩ := hturns.course hoperable hchildren
    refine ⟨(sound_iff _).mpr ⟨⟨?_, ?_, horder⟩, hbelow⟩, ?_⟩
    · simpa using hsound.upright.active_of_live
    · simpa using hsound.upright.fault_of_live
    · rw [heffects]
      simpa using Course.update [] [] hactive hcourse (.done [(n.update m w).1])
  · intro hactive
    obtain ⟨effects, heffects, hturns, horder⟩ :=
      finish_turns m w hactive hsound.upright.inOrder
    obtain ⟨hcourse, hbelow⟩ := hturns.course hoperable hchildren
    refine ⟨(sound_iff _).mpr ⟨⟨?_, ?_, horder⟩, hbelow⟩, ?_⟩
    · simp [finish_header hactive, Header.closed]
    · simp [finish_header hactive, Header.closed]
    · rw [heffects]
      simpa using Course.finish [] [] hactive hcourse (.done [n.finish.1])

end Choreo.Node
