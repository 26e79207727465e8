import Choreo.Proofs.Commuting
import Choreo.Proofs.Node.Bookkeeping
import Choreo.Proofs.Node.Siblings

/-!
# Transparent changes

A change to the nodes of a tree is transparent if it makes no difference whether a tree is changed first
and operated on afterwards, or the other way round. A change to one of the children of a node is as
transparent as the change to that child, so a change anywhere in a tree can be followed from there to
the root.
-/

namespace Choreo.Node

/-- A change to one of the children. -/
def onChild (i : Nat) (change : Node → Node) : Node → Node
  | leaf h a => leaf h a
  | sequence h children cursor => sequence h (children.modify i change) cursor
  | parallel h children running => parallel h (children.modify i change) running
  | repeating h child running => repeating h (if i = 0 then child.map change else child) running

/-! ### What makes a change transparent -/

/-- A change below a node, which the node does not show. -/
structure Inner (change : Node → Node) : Prop where
  header : ∀ n, (change n).header = n.header
  withHeader : ∀ n h, change (n.withHeader h) = (change n).withHeader h

/-- The second of two results is the first with the change made, and what was done is alike. -/
structure Through (Fit : Node → Prop) (change : Node → Node) (result result' : Node × List Effect) :
    Prop where
  fit : Fit result.1
  node : result'.1 = change result.1
  alike : Alike result.2 result'.2

structure Transparent (Fit : Node → Prop) (change : Node → Node) : Prop extends Inner change where
  hasStopped : ∀ {n} w, Fit n → (change n).hasStopped w = n.hasStopped w
  start : ∀ {n} w, Fit n → n.header.active = false →
    Through Fit change (n.start w) ((change n).start w)
  update : ∀ {n} m w, Fit n → n.header.active = true →
    Through Fit change (n.update m w) ((change n).update m w)
  finish : ∀ {n}, Fit n → Through Fit change n.finish (change n).finish

variable {Fit : Node → Prop} {change : Node → Node} {n : Node} {i : Nat}

namespace Inner

theorem start_of_not_live (h : Inner change) (w : Surroundings)
    (hlive : n.header.opened.live = false) :
    (change n).start w = (change (n.start w).1, (n.start w).2) := by
  have hlive' : (change n).header.opened.live = false := by rwa [h.header]
  rw [Node.start_of_not_live w hlive, Node.start_of_not_live w hlive', id, h.header, h.withHeader]
  rfl

theorem update_of_not_live (h : Inner change) (m : Moment) (w : Surroundings)
    (hlive : n.header.live = false) :
    (change n).update m w = (change (n.update m w).1, (n.update m w).2) := by
  rw [Node.update_of_not_live m w hlive, Node.update_of_not_live m w (by rwa [h.header])]

theorem finish_of_not_live (h : Inner change) (hlive : n.header.live = false) :
    (change n).finish = (change n.finish.1, n.finish.2) := by
  cases hactive : n.header.active with
  | false => rw [finish_of_not_active hactive, finish_of_not_active (by rwa [h.header])]
  | true =>
      rw [Node.finish_of_not_live hactive hlive,
        Node.finish_of_not_live (by rwa [h.header]) (by rwa [h.header]), id, h.header, h.withHeader]
      rfl

/-- Only while a node is live does it matter how its children stand. -/
theorem hasStopped (h : Inner change) (w : Surroundings)
    (hcomplete : n.header.live = true → (change n).isComplete = n.isComplete) :
    (change n).hasStopped w = n.hasStopped w := by
  rw [Node.hasStopped, Node.hasStopped, isOver, isOver, h.header]
  cases hlive : n.header.live with
  | false => rfl
  | true => rw [hcomplete hlive]

theorem map_active (h : Inner change) (i : Nat) (nodes : List Node) :
    (nodes.modify i change).map (·.header.active) = nodes.map (·.header.active) := by
  refine List.ext_getElem? fun j => ?_
  rw [List.getElem?_map, List.getElem?_map, List.getElem?_modify]
  cases nodes[j]? with
  | none => rfl
  | some c => by_cases hij : i = j <;> simp [hij, h.header]

end Inner

namespace Through

variable {result result' : Node × List Effect}

theorem same {node : Node} (hfit : Fit result.1) (hnode : node = change result.1) :
    Through Fit change result (node, result.2) :=
  ⟨hfit, hnode, .refl _⟩

theorem after {told told' : List Effect} (h : Through Fit change result result')
    (htold : Alike told told') :
    Through Fit change (result.1, told ++ result.2) (result'.1, told' ++ result'.2) :=
  ⟨h.fit, h.node, htold.append h.alike⟩

theorem before (h : Through Fit change result result') (told : List Effect) :
    Through Fit change (result.1, result.2 ++ told) (result'.1, result'.2 ++ told) :=
  ⟨h.fit, h.node, h.alike.append (.refl told)⟩

end Through

namespace Transparent

theorem visit (h : Transparent Fit change) (m : Moment) (w : Surroundings) (hfit : Fit n)
    (hactive : n.header.active = true) :
    Through Fit change ((n.visit m w).1, (n.visit m w).2.2)
        (((change n).visit m w).1, ((change n).visit m w).2.2) ∧
      ((change n).visit m w).2.1 = (n.visit m w).2.1 := by
  have hstopped := h.hasStopped w hfit
  cases hstop : n.hasStopped w with
  | true =>
      rw [visit_of_hasStopped m w hstop, visit_of_hasStopped m w (hstopped.trans hstop)]
      exact ⟨h.finish hfit, rfl⟩
  | false =>
      rw [visit_of_not_hasStopped m w hstop, visit_of_not_hasStopped m w (hstopped.trans hstop)]
      exact ⟨h.update m w hfit hactive, rfl⟩

theorem advance (h : Transparent Fit change) (m : Moment) (w : Surroundings) (hfit : Fit n) :
    Through Fit change (n.advance m w) ((change n).advance m w) := by
  cases hactive : n.header.active with
  | false =>
      rw [advance_of_not_active m w hactive, advance_of_not_active m w (by rwa [h.header])]
      exact .same hfit rfl
  | true =>
      rw [advance_of_active m w hactive, advance_of_active m w (by rwa [h.header])]
      exact (h.visit m w hfit hactive).1

end Transparent

/-! ### A change to one of several children -/

/-- As `Through`, for a list of children of which one is changed. -/
structure AllThrough (Fit : Node → Prop) (change : Node → Node) (i : Nat)
    (result result' : List Node × List Effect) : Prop where
  fit : ∀ c ∈ result.1[i]?, Fit c
  nodes : result'.1 = result.1.modify i change
  alike : Alike result.2 result'.2

namespace AllThrough

variable {nodes : List Node}

theorem head {first first' : Node × List Effect} (rest : List Node × List Effect)
    (h : Through Fit change first first') :
    AllThrough Fit change 0 (first.1 :: rest.1, first.2 ++ rest.2)
      (first'.1 :: rest.1, first'.2 ++ rest.2) := by
  obtain ⟨hfit, hnode, halike⟩ := h
  refine ⟨by simpa using hfit, ?_, halike.append (.refl _)⟩
  rw [hnode, List.modify_zero_cons]

theorem tail (first : Node × List Effect) {rest rest' : List Node × List Effect}
    (h : AllThrough Fit change i rest rest') :
    AllThrough Fit change (i + 1) (first.1 :: rest.1, first.2 ++ rest.2)
      (first.1 :: rest'.1, first.2 ++ rest'.2) := by
  obtain ⟨hfit, hnodes, halike⟩ := h
  refine ⟨by simpa using hfit, ?_, (Alike.refl _).append halike⟩
  rw [hnodes, List.modify_succ_cons]

theorem idle (change : Node → Node) (hfit : ∀ c ∈ nodes[i]?, Fit c) :
    AllThrough Fit change i (nodes, []) (nodes.modify i change, []) :=
  ⟨hfit, rfl, .refl []⟩

theorem nil : AllThrough Fit change i ([], []) ([], []) :=
  ⟨by simp, by simp, .refl []⟩

theorem of_turns (turn : Node → Node × List Effect)
    (hturn : ∀ c ∈ nodes[i]?, Through Fit change (turn c) (turn (change c))) :
    AllThrough Fit change i (nodes.map fun n => (turn n).1, nodes.flatMap fun n => (turn n).2)
      ((nodes.modify i change).map fun n => (turn n).1,
        (nodes.modify i change).flatMap fun n => (turn n).2) := by
  induction nodes generalizing i with
  | nil => simpa using nil
  | cons n nodes ih =>
      cases i with
      | zero =>
          rw [List.modify_zero_cons]
          exact head (nodes.map fun n => (turn n).1, nodes.flatMap fun n => (turn n).2)
            (hturn n rfl)
      | succ i =>
          rw [List.modify_succ_cons]
          exact tail (turn n) (ih hturn)

end AllThrough

namespace Transparent

variable {nodes : List Node} {cursor : Cursor}

theorem finishAt (h : Transparent Fit change) (hfit : ∀ c ∈ nodes[i]?, Fit c) (cursor : Cursor) :
    AllThrough Fit change i (Node.finishAt cursor nodes)
      (Node.finishAt cursor (nodes.modify i change)) := by
  induction nodes generalizing i cursor with
  | nil => cases cursor <;> simpa [Node.finishAt] using AllThrough.nil
  | cons n nodes ih =>
      cases cursor using Cursor.headCases with
      | ready => simpa [Node.finishAt] using .idle change hfit
      | finished next => simpa [Node.finishAt] using .idle change hfit
      | running =>
          cases i with
          | zero =>
              rw [List.modify_zero_cons, finishAt_running, finishAt_running]
              simpa using AllThrough.head (nodes, []) (h.finish (hfit n rfl))
          | succ i =>
              rw [List.modify_succ_cons, finishAt_running, finishAt_running]
              have hrest : ∀ c ∈ nodes[i]?, Fit c := hfit
              simpa using AllThrough.tail n.finish (.idle change hrest)
      | shift cursor =>
          cases i with
          | zero =>
              rw [List.modify_zero_cons, finishAt_shift, finishAt_shift]
              exact ⟨hfit, rfl, .refl _⟩
          | succ i =>
              rw [List.modify_succ_cons, finishAt_shift, finishAt_shift]
              exact AllThrough.tail (n, []) (ih hfit cursor)

theorem walk (h : Transparent Fit change) (m : Moment) (w : Surroundings)
    (hfit : ∀ c ∈ nodes[i]?, Fit c) (hmarks : cursor.Marks nodes) :
    AllThrough Fit change i ((walk m w cursor nodes).1, (walk m w cursor nodes).2.2)
        ((walk m w cursor (nodes.modify i change)).1,
          (walk m w cursor (nodes.modify i change)).2.2) ∧
      (walk m w cursor (nodes.modify i change)).2.1 = (walk m w cursor nodes).2.1 := by
  induction cursor, nodes using Cursor.walkInduction generalizing i with
  | nil cursor => cases cursor <;> simpa [Node.walk] using AllThrough.nil
  | finished next nodes =>
      have hwalk : ∀ nodes, Node.walk m w (.finished next) nodes = (nodes, .finished next, []) := by
        simp [Node.walk]
      rw [hwalk, hwalk]
      exact ⟨.idle change hfit, rfl⟩
  | shift cursor n rest ih =>
      obtain ⟨_, hmarks⟩ := (cursor.marks_shift n rest).mp hmarks
      cases i with
      | zero =>
          rw [List.modify_zero_cons, walk_shift, walk_shift]
          exact ⟨⟨hfit, rfl, .refl _⟩, rfl⟩
      | succ i =>
          obtain ⟨hafter, hcursor⟩ := ih hfit hmarks
          rw [List.modify_succ_cons, walk_shift, walk_shift, hcursor]
          exact ⟨.tail (n, []) hafter, rfl⟩
  | running n rest ih =>
      obtain ⟨hactive, hrest⟩ := hmarks
      cases i with
      | zero =>
          have hn : Fit n := hfit n rfl
          rw [List.modify_zero_cons, walk_running, walk_running, h.hasStopped w hn]
          split
          · exact ⟨.head (_, _) (h.finish hn), rfl⟩
          · simpa using AllThrough.head (rest, []) (h.update m w hn hactive)
      | succ i =>
          obtain ⟨hafter, hcursor⟩ := ih hfit ((Cursor.marks_ready rest).mpr hrest)
          rw [List.modify_succ_cons, walk_running, walk_running, hcursor]
          split
          · exact ⟨.tail n.finish hafter, rfl⟩
          · have hrest : ∀ c ∈ rest[i]?, Fit c := hfit
            simpa using AllThrough.tail (n.update m w) (.idle change hrest)
  | ready n rest ih =>
      rw [Cursor.marks_ready] at hmarks
      have hstarted : (n.start w).1.header.active = true := by simp [Header.opened]
      have hrest : ∀ c ∈ rest, c.header.active = false := fun c hc => hmarks c (by simp [hc])
      cases i with
      | zero =>
          obtain ⟨hnFit, hnode, hopening⟩ := h.start w (hfit n rfl) (hmarks n (by simp))
          obtain ⟨⟨hafterFit, hnodes, halike⟩, hcursor⟩ :=
            ih (n.start w).1 (i := 0) (by simpa using hnFit) ⟨hstarted, hrest⟩
          rw [List.modify_zero_cons] at hnodes halike hcursor ⊢
          rw [walk_ready, walk_ready, hnode, hcursor]
          exact ⟨⟨hafterFit, hnodes, hopening.append halike⟩, rfl⟩
      | succ i =>
          obtain ⟨⟨hafterFit, hnodes, halike⟩, hcursor⟩ :=
            ih (n.start w).1 (i := i + 1) (by simpa using hfit) ⟨hstarted, hrest⟩
          rw [List.modify_succ_cons] at hnodes halike hcursor ⊢
          rw [walk_ready, walk_ready, hcursor]
          exact ⟨⟨hafterFit, hnodes, (Alike.refl _).append halike⟩, rfl⟩

end Transparent

/-! ### A change to a child is transparent if the change is -/

structure FitChild (i : Nat) (Fit : Node → Prop) (n : Node) : Prop where
  sound : n.Sound
  child : ∀ c ∈ n.children[i]?, Fit c

theorem Inner.onChild (i : Nat) (change : Node → Node) : Inner (onChild i change) where
  header n := by cases n <;> rfl
  withHeader n h := by cases n <;> rfl

theorem onChild_far (hkind : n.kind = .repeating) : onChild (i + 1) change n = n := by
  cases n with
  | leaf h a => cases a <;> cases hkind
  | repeating h child running => rfl
  | _ => cases hkind

theorem children_far (hkind : n.kind = .repeating) : n.children[i + 1]? = none := by
  cases n with
  | leaf h a => cases a <;> cases hkind
  | repeating h child running => cases child <;> rfl
  | _ => cases hkind

/-- A repeating node has its child in the first place, and nothing in any other. -/
theorem Through.far {result : Node × List Effect} (hkind : result.1.kind = .repeating)
    (hsound : result.1.Sound) :
    Through (FitChild (i + 1) Fit) (onChild (i + 1) change) result result := by
  refine .same ⟨hsound, ?_⟩ (onChild_far hkind).symm
  rw [children_far hkind]
  simp

theorem Through.onlyChild {result result' : Node × List Effect} (h : Through Fit change result result')
    {header : Header} {running : Bool}
    (hsound : (repeating header (some result.1) running).Sound) :
    Through (FitChild 0 Fit) (Node.onChild 0 change)
      (repeating header (some result.1) running, result.2)
      (repeating header (some result'.1) running, result'.2) := by
  obtain ⟨hfit, hnode, halike⟩ := h
  refine ⟨⟨hsound, by simpa [children] using hfit⟩, ?_, halike⟩
  exact congrArg (repeating header · running) (congrArg some hnode)

namespace Transparent

variable (h : Transparent Fit change) (hn : FitChild i Fit n)
include h hn

theorem onChild_start (w : Surroundings) (hrest : n.header.active = false) :
    Through (FitChild i Fit) (Node.onChild i change) (n.start w)
      ((Node.onChild i change n).start w) := by
  obtain ⟨hsound, hfit⟩ := hn
  have hafter : (n.start w).1.Sound := sound_start hsound hrest
  cases hlive : n.header.opened.live with
  | false =>
      rw [(Inner.onChild i change).start_of_not_live w hlive]
      refine .same ⟨hafter, ?_⟩ rfl
      rwa [start_of_not_live w hlive, withHeader_children]
  | true =>
      cases n with
      | leaf header a =>
          rw [start_leaf w header hlive] at hafter
          rw [Node.onChild, start_leaf w header hlive]
          exact .same ⟨hafter, by simp [children]⟩ rfl
      | sequence header nodes cursor =>
          rw [start_sequence w header hlive] at hafter
          rw [Node.onChild, start_sequence w header hlive, start_sequence w header hlive]
          exact .same ⟨hafter, hfit⟩ rfl
      | parallel header nodes running =>
          have hturn : ∀ c ∈ nodes[i]?, Through Fit change (c.start w) ((change c).start w) :=
            fun c hc => h.start w (hfit c hc)
              (hsound.children_rest hrest c (List.mem_of_getElem? hc))
          obtain ⟨hbelow, hnodes, halike⟩ := AllThrough.of_turns (fun c => c.start w) hturn
          have hflags : ((nodes.modify i change).map fun _ => true) = nodes.map fun _ => true := by
            rw [List.map_const', List.map_const', List.length_modify]
          have hlength : ((nodes.map fun n => (n.start w).1).map fun _ => true) =
              nodes.map fun _ => true := by
            rw [List.map_map]
            rfl
          rw [start_parallel w header hlive] at hafter
          rw [Node.onChild, start_parallel w header hlive, start_parallel w header hlive]
          refine ⟨⟨hafter, hbelow⟩, ?_, halike.cons _⟩
          exact congrArg₂ (parallel header.opened) hnodes hflags
      | repeating header child running =>
          rw [start_repeating w header hlive] at hafter
          rw [Node.onChild, start_repeating w header hlive, start_repeating w header hlive]
          exact .same ⟨hafter, hfit⟩ rfl

theorem onChild_update (m : Moment) (w : Surroundings) (hactive : n.header.active = true) :
    Through (FitChild i Fit) (Node.onChild i change) (n.update m w)
      ((Node.onChild i change n).update m w) := by
  obtain ⟨hsound, hfit⟩ := hn
  have hafter : (n.update m w).1.Sound := (hsound.operable.update hactive).sound
  cases hlive : n.header.live with
  | false =>
      rw [(Inner.onChild i change).update_of_not_live m w hlive]
      refine .same ⟨hafter, ?_⟩ rfl
      rwa [update_of_not_live m w hlive]
  | true =>
      have horder := hsound.tidy hlive
      cases n with
      | leaf header a =>
          have hlive : header.live = true := hlive
          rw [update_leaf, if_pos hlive] at hafter
          rw [Node.onChild, update_leaf, if_pos hlive]
          exact .same ⟨hafter, by simp [children]⟩ rfl
      | sequence header nodes cursor =>
          obtain ⟨⟨hbelow, hnodes, halike⟩, hcursor⟩ := h.walk m w hfit horder
          rw [update_sequence m w header hlive] at hafter
          rw [Node.onChild, update_sequence m w header hlive, update_sequence m w header hlive]
          exact ⟨⟨hafter, hbelow⟩, congrArg₂ (sequence header) hnodes hcursor, halike⟩
      | parallel header nodes running =>
          obtain rfl : running = nodes.map (·.header.active) := horder
          have hturn : ∀ c ∈ nodes[i]?, Through Fit change (c.advance m w) ((change c).advance m w) :=
            fun c hc => h.advance m w (hfit c hc)
          obtain ⟨hbelow, hnodes, halike⟩ :=
            AllThrough.of_turns (fun c => c.advance m w) hturn
          rw [update_parallel m w header hlive, updateRunning_tidy] at hafter
          rw [Node.onChild, update_parallel m w header hlive, update_parallel m w header hlive,
            updateRunning_tidy, ← h.map_active i nodes, updateRunning_tidy]
          refine ⟨⟨hafter, hbelow⟩, congrArg₂ (parallel header) hnodes ?_, halike⟩
          rw [← h.map_active i (nodes.map _)]
          exact congrArg (List.map (·.header.active)) hnodes
      | repeating header child running =>
          cases i with
          | succ i =>
              rw [onChild_far rfl]
              exact .far (update_kind m w _) hafter
          | zero =>
              rw [Node.onChild, if_pos rfl]
              rcases child with _ | child
              · rw [update_vacant] at hafter
                rw [Option.map_none, update_vacant]
                exact .same ⟨hafter, hfit⟩ rfl
              have hchild : Fit child := hfit child rfl
              cases running with
              | true =>
                  obtain ⟨hturn, hgoes⟩ := h.visit m w hchild (horder child rfl)
                  rw [update_repeating_running m w header hlive] at hafter
                  rw [Option.map_some, update_repeating_running m w header hlive,
                    update_repeating_running m w header hlive, hgoes]
                  exact hturn.onlyChild hafter
              | false =>
                  obtain ⟨hstartedFit, hstarted, hopening⟩ := h.start w hchild (horder child rfl)
                  have hactive : (child.start w).1.header.active = true := by simp [Header.opened]
                  obtain ⟨hturn, hgoes⟩ := h.visit m w hstartedFit hactive
                  rw [update_repeating_resting m w header hlive] at hafter
                  rw [Option.map_some, update_repeating_resting m w header hlive,
                    update_repeating_resting m w header hlive, hstarted, hgoes]
                  exact (hturn.after hopening).onlyChild hafter

theorem onChild_finish :
    Through (FitChild i Fit) (Node.onChild i change) n.finish (Node.onChild i change n).finish := by
  obtain ⟨hsound, hfit⟩ := hn
  have hafter : n.finish.1.Sound := (local_finish hsound).sound
  cases hactive : n.header.active with
  | false =>
      have hactive' : (Node.onChild i change n).header.active = false := by
        rwa [(Inner.onChild i change).header]
      rw [finish_of_not_active hactive, finish_of_not_active hactive']
      exact .same ⟨hsound, hfit⟩ rfl
  | true =>
    cases hlive : n.header.live with
    | false =>
        rw [(Inner.onChild i change).finish_of_not_live hlive]
        refine .same ⟨hafter, ?_⟩ rfl
        rwa [finish_of_not_live hactive hlive, withHeader_children]
    | true =>
      have horder := hsound.tidy hlive
      cases n with
      | leaf header a =>
          rw [finish_leaf header hactive hlive] at hafter
          rw [Node.onChild, finish_leaf header hactive hlive]
          exact .same ⟨hafter, by simp [children]⟩ rfl
      | sequence header nodes cursor =>
          obtain ⟨hbelow, hnodes, halike⟩ := h.finishAt hfit cursor
          rw [finish_sequence header hactive hlive] at hafter
          rw [Node.onChild, finish_sequence header hactive hlive, finish_sequence header hactive hlive]
          refine ⟨⟨hafter, hbelow⟩, ?_, halike.append (.refl _)⟩
          exact congrArg (sequence header.closed · cursor.halt) hnodes
      | parallel header nodes running =>
          obtain rfl : running = nodes.map (·.header.active) := horder
          have hturn : ∀ c ∈ nodes[i]?, Through Fit change c.finish (change c).finish :=
            fun c hc => h.finish (hfit c hc)
          obtain ⟨hbelow, hnodes, halike⟩ := AllThrough.of_turns Node.finish hturn
          have hchanged := finishRunning_tidy (nodes.modify i change)
          rw [h.map_active] at hchanged
          rw [finish_parallel header hactive hlive, finishRunning_tidy] at hafter
          rw [Node.onChild, finish_parallel header hactive hlive, finish_parallel header hactive hlive,
            finishRunning_tidy, hchanged]
          refine ⟨⟨hafter, hbelow⟩, ?_, halike.append (.refl _)⟩
          exact congrArg (parallel header.closed · _) hnodes
      | repeating header child running =>
          cases i with
          | succ i =>
              rw [onChild_far rfl]
              exact .far (finish_kind hactive) hafter
          | zero =>
              rw [Node.onChild, if_pos rfl]
              rcases child with _ | child
              · rw [finish_vacant header hactive] at hafter
                rw [Option.map_none, finish_vacant header hactive]
                exact .same ⟨hafter, hfit⟩ rfl
              cases running with
              | true =>
                  have hturn := (h.finish (hfit child rfl)).before [.event (.ended header.id)]
                  rw [finish_repeating_running header hactive hlive] at hafter
                  rw [Option.map_some, finish_repeating_running header hactive hlive,
                    finish_repeating_running header hactive hlive]
                  exact hturn.onlyChild hafter
              | false =>
                  rw [finish_repeating_resting header hactive] at hafter
                  rw [Option.map_some, finish_repeating_resting header hactive,
                    finish_repeating_resting header hactive]
                  exact .same ⟨hafter, hfit⟩ rfl

omit hn in
theorem onChild (i : Nat) : Transparent (FitChild i Fit) (Node.onChild i change) where
  toInner := .onChild i change
  hasStopped w _ := (Inner.onChild i change).hasStopped w fun _ => by cases ‹Node› <;> rfl
  start w hn hrest := h.onChild_start hn w hrest
  update m w hn hactive := h.onChild_update hn m w hactive
  finish hn := h.onChild_finish hn

end Transparent

end Choreo.Node
