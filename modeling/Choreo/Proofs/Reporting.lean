import Choreo.Proofs.Node.Verdicts
import Choreo.Proofs.Restarts

/-!
# Numbers and reports

What an activation finds wrong with a script is told three times: by the faults of the nodes, by the
report, and by the events of the activation. All three tell the same, and by the same numbers: a check
counts the nodes of a tree in pre-order, and the actions of a flat script by their places.
-/

namespace Choreo

def Happening.faulted? : Happening → Option Nat
  | faulted n => some n
  | _ => none

namespace Script

/-- The nodes that a check numbers, in the order of their numbers. -/
def members : Script → List Node
  | tree root => root.preorder
  | flat actions _ => actions

/-- What is wrong with a member: in a tree what is wrong with the node by itself, and in a flat script
that it is a composite before anything else. -/
def verdict (w : Surroundings) (s : Script) (n : Node) : Option Fault :=
  match s with
  | tree _ => n.verdict w
  | flat .. => if n.isComposite then some .nestedInFlatSequence else n.verdict w

variable (w : Surroundings)

open Node

theorem judged_initFlat (cursor : Cursor) (actions : List Node) (n : Node) (first : Nat) :
    Judged ((flat actions cursor).verdict w n) n (n.initFlat w first).1 := by
  cases hkind : n.isComposite with
  | false =>
      rw [verdict, initFlat, hkind]
      exact n.judged_init w first
  | true =>
      rw [verdict, initFlat, hkind]
      exact ⟨by cases n <;> rfl, by cases n <;> rfl, by cases n <;> rfl⟩

theorem children_initFlat (n : Node) (first : Nat) :
    (n.initFlat w first).1.children = n.children := by
  cases n with
  | leaf h a =>
      rw [initFlat, if_neg (by simp [isComposite]), init_children]
      rfl
  | _ => rfl

theorem complaints_initFlat (n : Node) (first : Nat) :
    (n.initFlat w first).2 = (n.initFlat w first).1.complaint?.toList := by
  cases n with
  | leaf h a =>
      rw [initFlat, if_neg (by simp [isComposite]), faults_init, children, initAll, List.append_nil]
  | _ => rfl

/-- The check of a flat script, action by action. -/
theorem forall₂_initFlatAll {Related : Node → Node → Prop}
    (h : ∀ n first, Related n (n.initFlat w first).1) (actions : List Node) (first : Nat) :
    List.Forall₂ Related actions (initFlatAll w first actions).1 := by
  induction actions generalizing first with
  | nil => exact .nil
  | cons n rest ih => exact .cons (h n first) (ih (first + 1))

theorem complaints_initFlatAll (actions : List Node) (first : Nat) :
    (initFlatAll w first actions).2 = (initFlatAll w first actions).1.filterMap complaint? := by
  induction actions generalizing first with
  | nil => rfl
  | cons n rest ih =>
      change (n.initFlat w first).2 ++ (initFlatAll w (first + 1) rest).2 =
        ((n.initFlat w first).1 :: (initFlatAll w (first + 1) rest).1).filterMap complaint?
      rw [complaints_initFlat, ih]
      cases hown : (n.initFlat w first).1.complaint? with
      | none => rw [List.filterMap_cons_none hown]; rfl
      | some fault => rw [List.filterMap_cons_some hown]; rfl

/-! ### Numbers -/

theorem ids_members (s : Script) :
    (s.init w).1.members.map Node.id = List.range (s.init w).2.nodeCount := by
  rw [List.range_eq_range']
  cases s with
  | tree root => exact root.ids_init w 0
  | flat actions cursor =>
      have halone := ids_initFlatAll w 0 actions
      have hids : ∀ n : Node, n.alone.ids = [n.id] := by
        intro n
        rw [ids_eq, alone_id, alone_children, List.flatMap_nil]
      simp only [List.flatMap_map, hids] at halone
      rw [← List.map_eq_flatMap] at halone
      exact halone

theorem judged_members (s : Script) :
    List.Forall₂ (fun before after => Judged (s.verdict w before) before after) s.members
      (s.init w).1.members := by
  cases s with
  | tree root => exact root.judged_preorder w 0
  | flat actions cursor => exact forall₂_initFlatAll w (judged_initFlat w cursor actions) actions 0

theorem complaints_members (s : Script) :
    (s.init w).2.faults = (s.init w).1.members.filterMap complaint? := by
  cases s with
  | tree root => exact root.complaints_init w 0
  | flat actions cursor => exact complaints_initFlatAll w actions 0

/-- The report lists its faults under growing numbers. -/
theorem faults_increase (s : Script) :
    ((s.init w).2.faults.map (·.node)).Pairwise (· < ·) := by
  have hsub : ((s.init w).2.faults.map (·.node)).Sublist ((s.init w).1.members.map Node.id) := by
    rw [complaints_members]
    induction (s.init w).1.members with
    | nil => exact .slnil
    | cons n rest ih =>
        cases hfault : n.header.fault with
        | none =>
            rw [List.filterMap_cons_none (by simp [complaint?, hfault]), List.map_cons]
            exact ih.cons n.id
        | some error =>
            rw [List.filterMap_cons_some (b := ⟨n.id, n.kind, error⟩) (by simp [complaint?, hfault])]
            exact ih.cons_cons n.id
  rw [ids_members] at hsub
  exact List.pairwise_lt_range.sublist hsub

/-! ### Events -/

theorem eq_started_of_mem_start {s : Script} {h : Happening} (hmem : .event h ∈ (s.start w).2) :
    ∃ id, h = .started id := by
  cases s with
  | tree root => exact Node.eq_started_of_mem_start hmem
  | flat actions cursor => simp [Script.start] at hmem

end Script

theorem faulted_happenings_eq_nil {effects : List Effect}
    (h : ∀ k, .event k ∈ effects → k.faulted? = none) :
    (Effect.happenings effects).filterMap Happening.faulted? = [] := by
  rw [List.filterMap_eq_nil_iff]
  intro k hk
  exact h k (Node.mem_happenings.mp hk)

/-- A driver that is stopped tells of no faults. -/
theorem Driver.faulted_stop (d : Driver) :
    (Effect.happenings d.stop.2).filterMap Happening.faulted? = [] := by
  apply faulted_happenings_eq_nil
  intro k hk
  by_cases hrunning : d.status = .running
  · cases hscript : d.script with
    | none =>
        rw [stop_of_none hrunning hscript] at hk
        obtain rfl : k = .stopped := by simpa using hk
        rfl
    | some s =>
        rw [stop_of_running hrunning hscript] at hk
        rcases List.mem_append.mp hk with hk | hk
        · obtain ⟨i, rfl⟩ := Script.eq_ended_of_mem_finish hk
          rfl
        · obtain rfl : k = .stopped := by simpa using hk
          rfl
  · rw [stop_of_not_running hrunning] at hk
    simp at hk

/-- Each fault of the report is told once, in the order of the report. -/
theorem Driver.faulted_activate (w : Surroundings) {d : Driver} {override : Option Script}
    {s : Script} (hfound : (override <|> d.default) = some s) :
    (Effect.happenings (d.activate w override).1.2).filterMap Happening.faulted? =
      (s.init w).2.faults.map (·.node) := by
  have hopening : (Effect.happenings ((s.init w).1.start w).2).filterMap Happening.faulted? = [] := by
    apply faulted_happenings_eq_nil
    intro k hk
    obtain ⟨i, rfl⟩ := Script.eq_started_of_mem_start w hk
    rfl
  have hstopped : (override <|> d.stop.1.default) = some s := by rwa [d.stop_default]
  have htold : ((s.init w).2.happenings).filterMap Happening.faulted? =
      (s.init w).2.faults.map (·.node) := by
    rw [Report.happenings, List.filterMap_map]
    change List.filterMap (some ∘ NodeFault.node) _ = _
    rw [List.filterMap_eq_map]
  rw [activate_eq, activate_of_some w d.stop_status_ne_running hstopped]
  simp only [Node.happenings_append, List.filterMap_append, d.faulted_stop, hopening,
    Node.happenings_events, htold, List.nil_append, List.append_nil]
  simp [Effect.happenings, Effect.happening?, Happening.faulted?]

/-- **Numbers and reports.** A check numbers the nodes of a tree in pre-order and the actions of a flat
script by their places, and leaves each with the verdict that it would have alone; a subtree has its
numbers in one block, and what is below a composite in a flat script is not touched. The report lists
the nodes that are at fault, under growing numbers, and every activation with the script tells each of
these faults once and in that order. -/
theorem check_numbers_and_reports (w : Surroundings) (s : Script) :
    let checked := (s.init w).1
    let report := (s.init w).2
    report.nodeCount = s.members.length ∧
    checked.members.map Node.id = List.range report.nodeCount ∧
    List.Forall₂ (fun before after => Node.Judged (s.verdict w before) before after) s.members
      checked.members ∧
    (∀ root, s = .tree root → ∀ k ∈ checked.members, k.ids = List.range' k.id k.size) ∧
    (∀ actions cursor, s = .flat actions cursor →
      List.Forall₂ (fun before after => after.children = before.children) actions
        checked.members) ∧
    report.faults = checked.members.filterMap Node.complaint? ∧
    (report.faults.map (·.node)).Pairwise (· < ·) ∧
    ∀ (d : Driver) (override : Option Script), (override <|> d.default) = some s →
      (d.activate w override).2 = .ok report ∧
        (Effect.happenings (d.activate w override).1.2).filterMap Happening.faulted? =
          report.faults.map (·.node) := by
  intro checked report
  have hids := s.ids_members w
  have hjudged := s.judged_members w
  refine ⟨?_, hids, hjudged, ?_, ?_, s.complaints_members w, s.faults_increase w, ?_⟩
  · have hlength := congrArg List.length hids
    rw [List.length_map, List.length_range, ← hjudged.length_eq] at hlength
    exact hlength.symm
  · rintro root rfl k hk
    exact Node.ids_of_mem_init w hk
  · rintro actions cursor rfl
    exact Script.forall₂_initFlatAll w (Script.children_initFlat w) actions 0
  · intro d override hfound
    refine ⟨?_, Driver.faulted_activate w hfound⟩
    have hstopped : (override <|> d.stop.1.default) = some s := by rwa [d.stop_default]
    rw [Driver.activate]
    simp only [hstopped]
    rfl

end Choreo
