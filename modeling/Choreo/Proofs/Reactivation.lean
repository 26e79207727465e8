import Choreo.Proofs.Script.Accord
import Choreo.Proofs.Node.Retouch
import Choreo.Proofs.Discipline

/-!
# Reactivation

An activation starts over. What a script has been through before it is given to a driver is undone by
its check and its starts before anything looks at it: some of the progress of a node is reset when it
is checked and the rest when it is started, and one at fault is not started at all, but nor is it ever
asked how far it has come. What the driver has been through makes no difference either, except that
the report of an activation stays when a later one finds no script.
-/

namespace Choreo

def Leaf.pristine : Leaf → Leaf
  | wait a => wait { a with elapsed := 0 }
  | moveBy a => moveBy { a with direction := .zero, distance := 0, travelled := 0 }
  | followPath a => followPath { a with follower := {} }
  | followBezier a => followBezier { a with curveSpeed := 0, follower := {} }
  | jump a => jump { a with requested := false }
  | singleShot a => singleShot { a with fired := false }
  | barrage a => barrage { a with elapsed := 0, fired := 0 }
  | attack a => attack { a with done := false }
  | lob a => lob { a with done := false }
  | walk a => walk a

/-- What was authored, without anything that a run has made of it. -/
def Retouch.pristine : Retouch where
  header h := { label := h.label, enabled := h.enabled }
  leaf := Leaf.pristine
  cursor _ := .ready 0
  flags _ := []
  flag _ := false

def Script.pristine (s : Script) : Script := s.retouch .pristine

theorem Leaf.start_init_pristine (w : Surroundings) (a : Leaf) :
    (fun b w => Leaf.start w b) <$> a.pristine.init w = (fun b w => Leaf.start w b) <$> a.init w := by
  have hmoveBy (a : MoveBy) : (fun b w => Leaf.start w b) <$> (moveBy a).pristine.init w =
      (fun b w => Leaf.start w b) <$> (moveBy a).init w := by
    cases hvector : a.vector.isFinite with
    | true =>
        simp only [pristine, init, MoveBy.init, hvector, map_bind]
        rfl
    | false =>
        simp only [pristine, init, MoveBy.init, hvector, map_bind]
        rfl
  cases a with
  | moveBy a => exact hmoveBy a
  | _ => simp [pristine, init, Wait.init, FollowPath.init, FollowBezier.init, Jump.init,
      SingleShot.init, Barrage.init, Attack.init, Lob.init] <;> rfl

/-! ### The accord of a new start -/

namespace Accord

/-- Leaves are the same where they run, and will be where they can still be started. -/
def renewal : Accord where
  strict := False
  leaf h a b := (h.live = true → a = b) ∧ (h.fault = none → ∀ w, a.start w = b.start w)
  heard := some

theorem hear_renewal (effects : List Effect) : renewal.hear effects = effects :=
  List.filterMap_some

theorem renewal_leaf_refl (h : Header) (a : Leaf) : renewal.leaf h a a :=
  ⟨fun _ => rfl, fun _ _ => rfl⟩

theorem steady_renewal (m : Moment) (w : Surroundings) : renewal.Steady m w w where
  active := rfl
  isOver hlive hab := by rw [hab.1 hlive]
  rest {_ a b} hdead hab := ⟨fun hlive => by simp [hdead] at hlive, hab.2⟩
  start {h a b} hlive hab := by
    have hfault : h.fault = none := Option.isNone_iff_eq_none.mp (Bool.and_eq_true_iff.mp hlive).2
    rw [hab.2 hfault w]
    exact ⟨renewal_leaf_refl _ _, rfl⟩
  update {h a b} hlive hab := by
    rw [hab.1 hlive]
    exact ⟨renewal_leaf_refl _ _, rfl⟩
  close hab := ⟨fun hlive => by simp [Header.closed] at hlive, hab.2⟩
  finish hlive hab := by rw [hab.1 hlive]

theorem not_records_initialised {h : Header} {id : Nat} {fault : Option Fault} :
    ¬ renewal.Records (h.initialised id fault) := by
  rintro (hstrict | hlive)
  · exact hstrict
  · simp [Header.initialised] at hlive

theorem not_reaches_initialised {h : Header} {id : Nat} {fault : Fault} :
    ¬ renewal.Reaches (h.initialised id (some fault)) := by
  rintro (hstrict | hlive | hfault)
  · exact hstrict
  · simp [Header.initialised] at hlive
  · simp [Header.initialised] at hfault

end Accord

open Accord

/-! ### A check of a script that has run -/

namespace Node

structure Renewed (result result' : Node × List NodeFault) : Prop where
  node : Like renewal result.1 result'.1
  faults : result.2 = result'.2

variable (w : Surroundings)

theorem renewed_initAll {nodes : List Node}
    (hnodes : ∀ n ∈ nodes, ∀ first, Renewed (n.init w first) ((n.retouch .pristine).init w first))
    (first : Nat) :
    List.Forall₂ (Like renewal) (initAll w first nodes).1
        (initAll w first (nodes.map (retouch .pristine))).1 ∧
      (initAll w first nodes).2 = (initAll w first (nodes.map (retouch .pristine))).2 := by
  induction nodes generalizing first with
  | nil => exact ⟨.nil, rfl⟩
  | cons n rest ih =>
      obtain ⟨hnode, hfaults⟩ := hnodes n (by simp) first
      obtain ⟨hrest, hmore⟩ := ih (fun k hk => hnodes k (by simp [hk])) (first + n.size)
      rw [List.map_cons, initAll, initAll, size_retouch]
      exact ⟨.cons hnode hrest, congrArg₂ (· ++ ·) hfaults hmore⟩

theorem renewed_leaf (h : Header) (a : Leaf) (first : Nat) :
    Renewed ((leaf h a).init w first) (((leaf h a).retouch .pristine).init w first) := by
  have hstart := a.start_init_pristine w
  have hpristine : (leaf h a).retouch .pristine =
      leaf { label := h.label, enabled := h.enabled } a.pristine := rfl
  rw [hpristine, init, init]
  cases hinit : a.init w with
  | error fault =>
      rw [hinit] at hstart
      cases hinit' : a.pristine.init w with
      | ok b => rw [hinit'] at hstart; cases hstart
      | error fault' =>
          rw [hinit'] at hstart
          obtain rfl : fault' = fault := by simpa [Functor.map, Except.map] using hstart
          refine ⟨.leaf ⟨by simp [Header.initialised], by simp [Header.initialised]⟩, ?_⟩
          cases a <;> rfl
  | ok b =>
      rw [hinit] at hstart
      cases hinit' : a.pristine.init w with
      | error fault => rw [hinit'] at hstart; cases hstart
      | ok b' =>
          rw [hinit'] at hstart
          have hstart : (fun w => b'.start w) = fun w => b.start w := by
            simpa [Functor.map, Except.map] using hstart
          exact ⟨.leaf ⟨by simp [Header.initialised], fun _ w => (congrFun hstart w).symm⟩, rfl⟩

theorem renewed_init (n : Node) (first : Nat) :
    Renewed (n.init w first) ((n.retouch .pristine).init w first) := by
  induction n generalizing first with
  | node n ih =>
    cases n with
    | leaf h a => exact renewed_leaf w h a first
    | sequence h nodes cursor =>
        obtain ⟨hnodes, hfaults⟩ := renewed_initAll w ih (first + 1)
        rw [retouch_sequence, init, init]
        exact ⟨.sequence not_records_initialised.elim fun _ => hnodes, hfaults⟩
    | parallel h nodes running =>
        obtain ⟨hnodes, hfaults⟩ := renewed_initAll w ih (first + 1)
        rw [retouch_parallel, init, init]
        exact ⟨.parallel not_records_initialised.elim fun _ => hnodes, hfaults⟩
    | repeating h child running =>
        rw [retouch_repeating]
        cases child with
        | none =>
            rw [Option.map_none, init, init]
            exact ⟨.repeating not_records_initialised.elim fun _ => .nil, rfl⟩
        | some child =>
            obtain ⟨hchild, hfaults⟩ := ih child (by simp [children]) (first + 1)
            rw [Option.map_some, init, init]
            exact ⟨.repeating not_records_initialised.elim fun _ => .cons hchild .nil, hfaults⟩

theorem renewed_initFlat (n : Node) (id : Nat) :
    Renewed (n.initFlat w id) ((n.retouch .pristine).initFlat w id) := by
  rw [initFlat, initFlat, retouch_isComposite]
  cases hkind : n.isComposite with
  | false => exact n.renewed_init w id
  | true =>
      -- What is below a node that is turned away keeps its history, and is never reached.
      cases n with
      | leaf h a => cases hkind
      | sequence h nodes cursor =>
          rw [retouch_sequence]
          exact ⟨.sequence not_records_initialised.elim not_reaches_initialised.elim, rfl⟩
      | parallel h nodes running =>
          rw [retouch_parallel]
          exact ⟨.parallel not_records_initialised.elim not_reaches_initialised.elim, rfl⟩
      | repeating h child running =>
          rw [retouch_repeating]
          exact ⟨.repeating not_records_initialised.elim not_reaches_initialised.elim, rfl⟩

theorem renewed_initFlatAll (nodes : List Node) (first : Nat) :
    List.Forall₂ (Like renewal) (initFlatAll w first nodes).1
        (initFlatAll w first (nodes.map (retouch .pristine))).1 ∧
      (initFlatAll w first nodes).2 = (initFlatAll w first (nodes.map (retouch .pristine))).2 := by
  induction nodes generalizing first with
  | nil => exact ⟨.nil, rfl⟩
  | cons n rest ih =>
      obtain ⟨hnode, hfaults⟩ := n.renewed_initFlat w first
      obtain ⟨hrest, hmore⟩ := ih (first + 1)
      rw [List.map_cons, initFlatAll, initFlatAll]
      exact ⟨.cons hnode hrest, congrArg₂ (· ++ ·) hfaults hmore⟩

end Node

theorem Script.renewed_init (w : Surroundings) (s : Script) :
    Like renewal (s.init w).1 (s.pristine.init w).1 ∧ (s.init w).2 = (s.pristine.init w).2 := by
  cases s with
  | tree root =>
      obtain ⟨hroot, hfaults⟩ := root.renewed_init w 0
      refine ⟨.tree hroot, ?_⟩
      change (⟨(root.init w 0).2, root.size⟩ : Report) =
        ⟨((root.retouch .pristine).init w 0).2, (root.retouch .pristine).size⟩
      rw [hfaults, Node.size_retouch]
  | flat actions cursor =>
      obtain ⟨hactions, hfaults⟩ := Node.renewed_initFlatAll w actions 0
      refine ⟨.flat _ hactions, ?_⟩
      change (⟨(Node.initFlatAll w 0 actions).2, actions.length⟩ : Report) =
        ⟨(Node.initFlatAll w 0 (actions.map (Node.retouch .pristine))).2,
          (actions.map (Node.retouch .pristine)).length⟩
      rw [hfaults, List.length_map]

/-! ### Whole sessions -/

namespace Session

/-- Two sessions that go on alike. The first one has a past, which the other does not share. -/
structure Resumes (past : List Event) (s t : Session) : Prop where
  driver : Driver.Like renewal s.driver t.driver
  intentions : s.intentions = t.intentions
  trace : s.trace = past ++ t.trace

variable {past : List Event} {s t : Session}

theorem resumes_beat {b b' : Beat} (hmoment : b.moment = b'.moment)
    (hmeanwhile : b.meanwhile s.intentions = b'.meanwhile t.intentions)
    (hcall : Driver.LikeAfter renewal (s.driver.call b.moment b.surroundings b.call)
      (t.driver.call b'.moment b'.surroundings b'.call))
    (htrace : s.trace = past ++ t.trace) : Resumes past (s.beat b) (t.beat b') := by
  obtain ⟨hdriver, hheard⟩ := hcall
  rw [hear_renewal, hear_renewal] at hheard
  refine ⟨hdriver, ?_, ?_⟩
  · rw [beat_intentions, beat_intentions, hheard, hmeanwhile]
  · calc (s.beat b).trace
      _ = past ++ t.trace ++ Entity.events b'.moment
            (t.driver.call b'.moment b'.surroundings b'.call).2 := by
          rw [beat_trace, htrace, hheard, hmoment]
      _ = past ++ (t.beat b').trace := by rw [beat_trace, List.append_assoc]

theorem Resumes.beat (h : Resumes past s t) {b : Beat} (hcall : b.call = .tick ∨ b.call = .stop) :
    Resumes past (s.beat b) (t.beat b) := by
  have hA := steady_renewal b.moment b.surroundings
  refine resumes_beat rfl (by rw [h.intentions]) ?_ h.trace
  rcases hcall with hcall | hcall <;> rw [hcall]
  · exact h.driver.tick hA
  · exact h.driver.stop hA

theorem Resumes.run (h : Resumes past s t) {beats : List Beat}
    (hcalls : ∀ b ∈ beats, b.call = .tick ∨ b.call = .stop) :
    Resumes past (s.run beats) (t.run beats) := by
  have hbeat : ∀ s t (b : Beat), Resumes past s t → b.call = .tick ∨ b.call = .stop →
      Resumes past (s.beat b) (t.beat b) := fun _ _ _ h hcall => h.beat hcall
  exact run_relates hbeat h hcalls

/-- The second session, which is new, can be told from the first by the report alone. -/
structure Continues (past : List Event) (s t : Session) : Prop where
  status : s.driver.status = t.driver.status
  intentions : s.intentions = t.intentions
  trace : s.trace = past ++ t.trace

theorem Resumes.continues (h : Resumes past s t) : Continues past s t :=
  ⟨h.driver.status, h.intentions, h.trace⟩

end Session

def Beat.activating (b : Beat) (override : Option Script) : Beat :=
  { b with call := .activate override }

namespace Session

variable {s : Session} {b : Beat}

theorem resumes_activate (hidle : s.driver.status ≠ .running) (default : Option Script)
    {o o' : Option Script} {script script' : Script} (hs : (o <|> s.driver.default) = some script)
    (ht : (o' <|> default) = some script')
    (hlike : Script.Like renewal (script.init b.surroundings).1 (script'.init b.surroundings).1)
    (hreport : (script.init b.surroundings).2 = (script'.init b.surroundings).2) :
    Resumes s.trace (s.beat (b.activating o))
      ((Session.fresh default s.intentions).beat (b.activating o')) := by
  have hfresh : (Session.fresh default s.intentions).driver.status ≠ .running := by simp [fresh]
  have hA := steady_renewal b.moment b.surroundings
  have hafter := Driver.likeAfter_activate hA hidle hfresh hs ht hlike hreport
  exact resumes_beat rfl rfl hafter (List.append_nil _).symm

theorem beat_of_missing (hidle : s.driver.status ≠ .running) (hnone : s.driver.default = none) :
    s.beat (b.activating none) =
      { driver := { s.driver with script := none, status := .idle }
        intentions := b.meanwhile s.intentions
        trace := s.trace } := by
  have hfound : (none <|> s.driver.default) = none := hnone
  have hcall := Driver.activate_of_none b.surroundings hidle hfound
  rw [beat, Beat.activating, Driver.call, hcall]
  simp [Effect.writes, Write.applyAll, Entity.events, Effect.happenings]

theorem run_of_missing (hidle : s.driver.status ≠ .running) (hnone : s.driver.default = none)
    {later : List Beat} (hlater : ∀ b ∈ later, b.call = .tick ∨ b.call = .stop) :
    s.run (b.activating none :: later) =
      { driver := { s.driver with script := none, status := .idle }
        intentions := later.foldl (fun i b => b.meanwhile i) (b.meanwhile s.intentions)
        trace := s.trace } := by
  have hbeat := beat_of_missing (b := b) hidle hnone
  have hstatus : (s.beat (b.activating none)).driver.status ≠ .running := by simp [hbeat]
  calc s.run (b.activating none :: later)
    _ = (s.beat (b.activating none)).run later := rfl
    _ = { s.beat (b.activating none) with
          intentions := later.foldl (fun i b => b.meanwhile i)
            (s.beat (b.activating none)).intentions } := quiet_of_not_running hstatus later hlater
    _ = _ := by rw [hbeat]

end Session

open Session in
/-- **An activation erases history.** Whatever a session has been through, once its driver does not run
an activation and what follows it are like on a new driver, also if the script that is given has
itself been run before. Only where no script is found the old report remains. -/
theorem activation_erases_history {used : Session} (hidle : used.driver.status ≠ .running) (b : Beat)
    {later : List Beat} (hlater : ∀ b ∈ later, b.call = .tick ∨ b.call = .stop) :
    (∀ default script,
      let old := used.run (b.activating (some script) :: later)
      let new := (fresh default used.intentions).run (b.activating (some script.pristine) :: later)
      old.Continues used.trace new ∧ old.driver.report = new.driver.report) ∧
    let old := used.run (b.activating none :: later)
    let new := (fresh used.driver.default used.intentions).run (b.activating none :: later)
    old.Continues used.trace new ∧
      old.driver.report =
        if used.driver.default.isSome then new.driver.report else used.driver.report := by
  refine ⟨?_, ?_⟩
  · intro default script old new
    obtain ⟨hlike, hreport⟩ := script.renewed_init b.surroundings
    have hstart : Resumes used.trace (used.beat (b.activating (some script)))
        ((fresh default used.intentions).beat (b.activating (some script.pristine))) :=
      resumes_activate hidle default rfl rfl hlike hreport
    have hend : Resumes used.trace old new := hstart.run hlater
    exact ⟨hend.continues, hend.driver.report⟩
  · intro old new
    cases hdefault : used.driver.default with
    | some script =>
        have hlike : Script.Like renewal (script.init b.surroundings).1
            (script.init b.surroundings).1 := .refl renewal_leaf_refl _
        have hstart : Resumes used.trace (used.beat (b.activating none))
            ((fresh used.driver.default used.intentions).beat (b.activating none)) :=
          resumes_activate hidle used.driver.default hdefault hdefault hlike rfl
        have hend : Resumes used.trace old new := hstart.run hlater
        exact ⟨hend.continues, hend.driver.report⟩
    | none =>
        have hfresh : (fresh used.driver.default used.intentions).driver.status ≠ .running := by
          simp [fresh]
        have hold := run_of_missing (b := b) hidle hdefault hlater
        have hnew := run_of_missing (b := b) hfresh hdefault hlater
        change old = _ at hold
        change new = _ at hnew
        rw [hold, hnew]
        exact ⟨⟨rfl, rfl, (List.append_nil _).symm⟩, rfl⟩

/-- A strike that has been made, cloned out of its run, is made again. -/
theorem activation_erases_history_encore :
    let done : Script := .tree (.leaf { active := true, live := true } (.attack { done := true }))
    let b : Beat := ⟨⟨0, 1⟩, {}, id, .tick⟩
    let used := (Session.fresh (some done) .all).run [b.activating none, b, b]
    let old := used.run [b.activating (some done), b]
    let new := (Session.fresh none used.intentions).run [b.activating (some done.pristine), b]
    used.driver.status = .finished ∧ old.Continues used.trace new ∧
      old.driver.report = new.driver.report := by
  intro done b used old new
  have hstatus : used.driver.status = .finished := rfl
  have hidle : used.driver.status ≠ .running := by simp [hstatus]
  have hlater : ∀ k ∈ [b], k.call = .tick ∨ k.call = .stop := by simp [b]
  exact ⟨hstatus, (activation_erases_history hidle b hlater).1 none done⟩

/-- A driver without a default script has been given a repeating node without a child, and still tells
of that fault when it is next activated and finds nothing to run. -/
theorem report_outlives_failed_activation :
    let b : Beat := ⟨⟨0, 1⟩, {}, id, .stop⟩
    let vacant : Script := .tree (.repeating {} none false)
    let used := (Session.fresh none .all).run [b.activating (some vacant), b]
    let old := used.run [b.activating none]
    let new := (Session.fresh used.driver.default used.intentions).run [b.activating none]
    used.driver.status = .stopped ∧ old.driver.report.faults = [⟨0, .repeating, .missingChild⟩] ∧
      new.driver.report.faults = [] := by
  exact ⟨rfl, rfl, rfl⟩

end Choreo
