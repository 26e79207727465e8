import Choreo.Proofs.Node.Renewal
import Choreo.Proofs.Timeline
import Choreo.Proofs.Timing

/-!
# Repetition

A repeating node starts its child in the first update that finds it closed, updates it until it has
stopped, ends it in the update that finds it so, and leaves it closed for the rest of that update. The
next iteration begins one update later and owes nothing to the ones before: the child is as good as
new, so each iteration is what the authored child would do after a check and a start of its own.
-/

namespace Choreo

open Accord

section After

variable {α σ : Type} (step : α → σ → σ)

theorem after_succ (k : ℕ) (s : Stream' α) (x : σ) :
    after step (k + 1) s x = step (s.get k) (after step k s x) := by
  induction k generalizing s x with
  | zero => rfl
  | succ k ih => exact ih s.tail (step s.head x)

theorem after_add (j k : ℕ) (s : Stream' α) (x : σ) :
    after step (j + k) s x = after step k (s.drop j) (after step j s x) := by
  induction k with
  | zero => rfl
  | succ k ih => rw [← Nat.add_assoc, after_succ, after_succ, ih, Stream'.get_drop]

end After

namespace Node

/-- What can become of a checked tree, or of a part of it, that is started, updated and ended in the
order of its lifecycle: an open node has been started and not ended since. Between two calls any nodes
may be switched on and off. -/
inductive Career (checked : Node) : Bool → Node → Prop
  | checked : Career checked false checked
  | start {n : Node} (w : Surroundings) (h : Career checked false n) :
      Career checked true (n.start w).1
  | update {n : Node} (m : Moment) (w : Surroundings) (h : Career checked true n) :
      Career checked true (n.update m w).1
  | finish {n : Node} {isOpen : Bool} (h : Career checked isOpen n) : Career checked false n.finish.1
  | switch {n next : Node} {isOpen : Bool} (h : Career checked isOpen n)
      (hsame : next.retouch .unswitched = n.retouch .unswitched) : Career checked isOpen next
  /-- A part of a tree is from there on called by the nodes above it. -/
  | part {n k : Node} {isOpen : Bool} (h : Career checked isOpen n) (hk : k ∈ n.preorder) :
      Career checked k.header.active k

/-- Whatever is done to a tree after a check, the check need not be made again. -/
theorem Career.renewable {v : Surroundings} {authored n : Node} {isOpen : Bool}
    (h : Career (authored.init v 0).1 isOpen n) : n.Renewable v ∧ n.header.active = isOpen := by
  induction h with
  | checked => exact ⟨authored.renewable_init v 0, by simp⟩
  | @start n w _ ih =>
      have hstart : Proceeds ⟨0, 0⟩ w n (n.start w) := ih.1.sound.operable.start ih.2
      exact ⟨ih.1.of_proceeds hstart, by simp [Header.opened]⟩
  | @update n m w _ ih =>
      exact ⟨ih.1.of_proceeds (ih.1.sound.operable.update ih.2), by rw [update_header, ih.2]⟩
  | @finish n isOpen _ ih =>
      refine ⟨?_, n.finish_not_active⟩
      -- The moment and the surroundings play no part in an end.
      rcases finish_proceeds (m := ⟨0, 0⟩) (w := {}) ih.1.sound with hrest | hproceeds
      · rw [hrest]
        exact ih.1
      · exact ih.1.of_proceeds hproceeds
  | @switch n next isOpen _ hsame ih =>
      refine ⟨by rw [← renewable_unswitched, hsame, renewable_unswitched]; exact ih.1, ?_⟩
      rw [← active_unswitched, hsame, active_unswitched]
      exact ih.2
  | part _ hk ih => exact ⟨ih.1.of_mem_preorder hk, rfl⟩

/-! ### Feeding a node -/

variable {c : Stream' Context} {h : Header} {y : Node}

/-- The node after so many updates. -/
def fed (k : ℕ) (c : Stream' Context) (n : Node) : Node :=
  after (fun x n => (n.update x.1 x.2).1) k c n

/-- What the node does in one of its updates, the first being number `0`. -/
def deeds (k : ℕ) (c : Stream' Context) (n : Node) : List Effect :=
  ((n.fed k c).update (c.get k).1 (c.get k).2).2

theorem fed_succ (k : ℕ) (c : Stream' Context) (n : Node) :
    n.fed (k + 1) c = ((n.fed k c).update (c.get k).1 (c.get k).2).1 :=
  after_succ _ k c n

theorem fed_add (j k : ℕ) (c : Stream' Context) (n : Node) :
    n.fed (j + k) c = (n.fed j c).fed k (c.drop j) :=
  after_add _ j k c n

theorem deeds_add (j k : ℕ) (c : Stream' Context) (n : Node) :
    n.deeds (j + k) c = (n.fed j c).deeds k (c.drop j) := by
  rw [deeds, deeds, fed_add, Stream'.get_drop]

theorem fed_header (k : ℕ) (c : Stream' Context) (n : Node) : (n.fed k c).header = n.header := by
  induction k with
  | zero => rfl
  | succ k ih => rw [fed_succ, update_header, ih]

theorem lt_remaining_iff (j : ℕ) (c : Stream' Context) (n : Node) :
    (j : ℕ∞) < n.remaining c ↔ ∀ i ≤ j, (n.fed i c).hasStopped {} = false := by
  have hle : (j : ℕ∞) < n.remaining c ↔ ((j + 1 : ℕ) : ℕ∞) ≤ n.remaining c := by
    rw [Nat.cast_add, Nat.cast_one, ENat.add_one_le_iff (ENat.natCast_ne_top j)]
  rw [hle, remaining, le_lifetime_iff]
  exact forall_congr' fun i => by rw [Nat.lt_succ_iff]; rfl

theorem hasStopped_of_eq_remaining {j : ℕ} {n : Node} (hj : (j : ℕ∞) = n.remaining c) :
    (n.fed j c).hasStopped {} = true := by
  have hnot : ¬ (j : ℕ∞) < n.remaining c := by rw [hj]; exact lt_irrefl _
  have hbefore : ∀ i < j, (n.fed i c).hasStopped {} = false := by
    have hle : (j : ℕ∞) ≤ n.remaining c := hj.le
    rw [remaining, le_lifetime_iff] at hle
    exact hle
  rw [lt_remaining_iff] at hnot
  by_contra hgoes
  refine hnot fun i hi => ?_
  rcases Nat.lt_or_eq_of_le hi with hlt | rfl
  · exact hbefore i hlt
  · simpa using hgoes

/-! ### One iteration -/

theorem visit_of_lt_remaining {j : ℕ} {n : Node} (hc : Attended c) (hj : (j : ℕ∞) < n.remaining c) :
    (n.fed j c).visit (c.get j).1 (c.get j).2 = (n.fed (j + 1) c, true, n.deeds j c) := by
  have hgoes := (lt_remaining_iff j c n).mp hj j le_rfl
  rw [← hasStopped_of_active (hc j)] at hgoes
  rw [visit_of_not_hasStopped _ _ hgoes, fed_succ, deeds]

theorem visit_of_eq_remaining {j : ℕ} {n : Node} (hc : Attended c) (hj : (j : ℕ∞) = n.remaining c) :
    (n.fed j c).visit (c.get j).1 (c.get j).2 =
      ((n.fed j c).finish.1, false, (n.fed j c).finish.2) := by
  have hstop := hasStopped_of_eq_remaining hj
  rw [← hasStopped_of_active (hc j)] at hstop
  rw [visit_of_hasStopped _ _ hstop]

/-- Until the child has stopped and in the update that finds it so, an update is a visit of the child,
after the start of the child in the first of them. -/
theorem update_repeating_fed (hc : Attended c) (hlive : h.live = true) (y : Node) {j : ℕ}
    (hj : (j : ℕ∞) ≤ (y.start c.head.2).1.remaining c) :
    let started := y.start c.head.2
    let visited := (started.1.fed j c).visit (c.get j).1 (c.get j).2
    ((repeating h (some y) false).fed j c).update (c.get j).1 (c.get j).2 =
      (repeating h (some visited.1) visited.2.1,
        (if j = 0 then started.2 else []) ++ visited.2.2) := by
  induction j with
  | zero => exact update_repeating_resting _ _ h hlive y
  | succ j ih =>
      have hlt : (j : ℕ∞) < (y.start c.head.2).1.remaining c := by
        refine lt_of_lt_of_le ?_ hj
        exact_mod_cast Nat.lt_succ_self j
      have hprevious := ih hlt.le
      simp only [visit_of_lt_remaining hc hlt] at hprevious
      intro started visited
      rw [fed_succ, hprevious, update_repeating_running _ _ h hlive, if_neg (Nat.succ_ne_zero j)]
      rfl

theorem exists_fed_repeating (hlive : h.live = true) (x : Node) (running : Bool) (k : ℕ)
    (c : Stream' Context) :
    ∃ y flag, (repeating h (some x) running).fed k c = repeating h (some y) flag := by
  induction k with
  | zero => exact ⟨x, running, rfl⟩
  | succ k ih =>
      obtain ⟨y, flag, hfed⟩ := ih
      rw [fed_succ, hfed]
      cases flag with
      | true => exact ⟨_, _, congrArg Prod.fst (update_repeating_running _ _ h hlive y)⟩
      | false => exact ⟨_, _, congrArg Prod.fst (update_repeating_resting _ _ h hlive y)⟩

/-- The iteration of `p` that begins with an update: `started` is the start of the child. -/
structure Iteration (p : Node) (c : Stream' Context) (s : ℕ) (h : Header)
    (started : Node × List Effect) : Prop where
  goes : ∀ j : ℕ, (j : ℕ∞) < started.1.remaining (c.drop s) →
    p.fed (s + j + 1) c = repeating h (some (started.1.fed (j + 1) (c.drop s))) true ∧
      p.deeds (s + j) c = (if j = 0 then started.2 else []) ++ started.1.deeds j (c.drop s)
  ends : ∀ j : ℕ, (j : ℕ∞) = started.1.remaining (c.drop s) →
    p.fed (s + j + 1) c = repeating h (some (started.1.fed j (c.drop s)).finish.1) false ∧
      p.deeds (s + j) c =
        (if j = 0 then started.2 else []) ++ (started.1.fed j (c.drop s)).finish.2

theorem iteration (hc : Attended c) (hlive : h.live = true) {p : Node} {s : ℕ}
    (hp : p.fed s c = repeating h (some y) false) :
    Iteration p c s h (y.start (c.get s).2) := by
  have hlater : Attended (c.drop s) := fun k => by rw [Stream'.get_drop]; exact hc (s + k)
  have hhead : (c.drop s).head = c.get s := Stream'.head_drop c s
  have hstep := fun j => update_repeating_fed (j := j) hlater hlive y
  simp only [hhead] at hstep
  constructor
  · intro j hj
    have hupdate := hstep j hj.le
    rw [visit_of_lt_remaining hlater hj] at hupdate
    rw [deeds_add, hp, deeds, Nat.add_assoc, fed_add, hp, fed_succ, hupdate]
    exact ⟨rfl, rfl⟩
  · intro j hj
    have hupdate := hstep j hj.le
    rw [visit_of_eq_remaining hlater hj] at hupdate
    rw [deeds_add, hp, deeds, Nat.add_assoc, fed_add, hp, fed_succ, hupdate]
    exact ⟨rfl, rfl⟩

/-! ### Every iteration is like the first -/

/-- From their starts on two nodes take as long and do the same, whenever they are ended. -/
structure AsNew (c : Stream' Context) (old new : Node × List Effect) : Prop where
  opening : old.2 = new.2
  remaining : old.1.remaining c = new.1.remaining c
  deeds : ∀ j, old.1.deeds j c = new.1.deeds j c
  closing : ∀ j, (old.1.fed j c).finish.2 = (new.1.fed j c).finish.2

theorem Like.fed {n k : Node} (hlike : Like renewal n k) (j : ℕ) (c : Stream' Context) :
    Like renewal (n.fed j c) (k.fed j c) := by
  induction j with
  | zero => exact hlike
  | succ j ih =>
      rw [fed_succ, fed_succ]
      exact (ih.update (steady_renewal _ _)).node

theorem Like.remaining_eq {n k : Node} (hlike : Like renewal n k) (c : Stream' Context) :
    n.remaining c = k.remaining c := by
  have hstopped : ∀ i, (n.fed i c).hasStopped {} = (k.fed i c).hasStopped {} :=
    -- The moment plays no part in the question.
    fun i => (hlike.fed i c).hasStopped (steady_renewal ⟨0, 0⟩ {})
  refine ENat.eq_of_forall_natCast_le_iff fun j => ?_
  rw [remaining, remaining, le_lifetime_iff, le_lifetime_iff]
  exact forall₂_congr fun i _ => by rw [← Node.fed, ← Node.fed, hstopped i]

theorem Like.asNew {n k : Node} (hlike : Like renewal n k) (w : Surroundings)
    (c : Stream' Context) : AsNew c (n.start w) (k.start w) := by
  have hstart := hlike.start (steady_renewal ⟨0, 0⟩ w)
  refine ⟨?_, hstart.node.remaining_eq c, fun j => ?_, fun j => ?_⟩
  · simpa only [hear_renewal] using hstart.heard
  · have hupdate := ((hstart.node.fed j c).update (steady_renewal (c.get j).1 (c.get j).2)).heard
    simpa only [hear_renewal, Node.deeds] using hupdate
  · have hfinish := ((hstart.node.fed j c).finish (steady_renewal ⟨0, 0⟩ w)).heard
    simpa only [hear_renewal] using hfinish

/-! ### The child through all iterations -/

/-- What no update of an open node changes. -/
structure Lasts (v : Surroundings) (n k : Node) : Prop where
  renewable : k.Renewable v
  pristine : k.retouch .pristine = n.retouch .pristine
  ids : k.ids = n.ids

theorem Renewable.lasts {v : Surroundings} {n : Node} (h : n.Renewable v)
    (hactive : n.header.active = true) (k : ℕ) (c : Stream' Context) : Lasts v n (n.fed k c) := by
  induction k with
  | zero => exact ⟨h, rfl, rfl⟩
  | succ k ih =>
      have hstill : (n.fed k c).header.active = true := by rw [fed_header, hactive]
      have hproceeds : Proceeds (c.get k).1 (c.get k).2 (n.fed k c) _ :=
        ih.renewable.sound.operable.update hstill
      rw [fed_succ]
      exact ⟨ih.renewable.of_proceeds hproceeds,
        (by simpa using hproceeds.course.map_pristine_eq : _ = _).trans ih.pristine,
        hproceeds.isLocal.ids.trans ih.ids⟩

/-- A closed child is the one there was, and as good as new. -/
theorem Lasts.child {v : Surroundings} {x : Node} {running : Bool}
    (hlasts : Lasts v (repeating h (some x) running) (repeating h (some y) false))
    (hlive : h.live = true) :
    y.header.active = false ∧ Like renewal y ((x.retouch .pristine).init v x.id).1 := by
  obtain ⟨hrenewable, hpristine, hids⟩ := hlasts
  have hy : y ∈ (repeating h (some y) false).children := by simp [children]
  have hrest : y.header.active = false := hrenewable.sound.tidy hlive y rfl
  have hauthored : y.retouch .pristine = x.retouch .pristine := by
    simpa [retouch_repeating, Retouch.pristine] using hpristine
  have hid : y.id = x.id := by
    have hbelow : y.ids = x.ids := by simpa [ids_eq, children, id, header] using hids
    rw [ids_eq, ids_eq x] at hbelow
    exact (List.cons.inj hbelow).1
  have hlike := (hrenewable.children hy).like_init hrest
  rw [hauthored, hid] at hlike
  exact ⟨hrest, hlike⟩

theorem start_eq_of_live {n x : Node} {running : Bool} {w : Surroundings}
    (hstart : (n.start w).1 = repeating h (some x) running) (hlive : h.live = true) :
    n.start w = (repeating h (some x) false, [.event (.started h.id)]) := by
  have hheader : n.header.opened = h := by
    have hheader := n.start_header w
    rw [hstart] at hheader
    exact hheader.symm
  have hopened : n.header.opened.live = true := by rw [hheader, hlive]
  cases n with
  | leaf header a => rw [start_leaf w header hopened] at hstart; cases hstart
  | sequence header nodes cursor => cases hstart
  | parallel header nodes flags => rw [start_parallel w header hopened] at hstart; cases hstart
  | repeating header child flag =>
      obtain rfl : header.opened = h := hheader
      rw [start_repeating w header hopened] at hstart ⊢
      obtain ⟨_, rfl, _⟩ := Node.repeating.inj hstart
      rfl

end Node

open Node in
/-- **Every iteration starts afresh.** Take a live repeating node with a child, at any time after the
check of the tree it is in, and update it while its entity stays active and has the capabilities that
it was checked with. The node is never over. After its start the first update begins an iteration; and
whenever an update begins one, the child is started, updated until it has stopped, ended in the next
update and left closed for the rest of it, and the update after that begins another iteration. In each
of them the child does what its authored form does after a check and a start in the same
surroundings. -/
theorem iterations_start_afresh {v : Surroundings} {authored : Node} {h : Header} {x : Node}
    {running : Bool} (hp : Career (authored.init v 0).1 true (repeating h (some x) running))
    (hlive : h.live = true) {c : Stream' Context} (hc : Attended c)
    (hhas : ∀ k, (c.get k).2.has = v.has) :
    let p := repeating h (some x) running
    (∀ (n : Node) w, (n.start w).1 = p →
      n.start w = (repeating h (some x) false, [.event (.started h.id)])) ∧ ∀ s,
      (p.fed s c).isOver = false ∧ ∀ y, p.fed s c = repeating h (some y) false →
        let u := (c.get s).2
        let fresh := ((x.retouch .pristine).init u x.id).1
        y.header.active = false ∧ Iteration p c s h (y.start u) ∧
          AsNew (c.drop s) (y.start u) (fresh.start u) := by
  intro p
  obtain ⟨hrenewable, hactive⟩ := hp.renewable
  refine ⟨fun n w hstart => ?_, fun s => ⟨?_, fun y hy => ?_⟩⟩
  · exact start_eq_of_live hstart hlive
  · obtain ⟨y, flag, hfed⟩ := exists_fed_repeating hlive x running s c
    rw [hfed, isOver, header, hlive]
    rfl
  · intro u fresh
    have hlasts := hrenewable.lasts hactive s c
    rw [hy] at hlasts
    obtain ⟨hclosed, hlike⟩ := hlasts.child hlive
    rw [← (x.retouch .pristine).init_congr (hhas s)] at hlike
    exact ⟨hclosed, iteration hc hlive hy, hlike.asNew u _⟩

open Node in
/-- A strike that has been made once is made again. -/
theorem iterations_start_afresh_volley :
    let volley : Node := .repeating {} (some (.leaf {} (.attack {}))) false
    let c : Stream' Context := Stream'.const (⟨0, 0⟩, {})
    let p := ((volley.init {} 0).1.start {}).1
    let used : Node := .leaf { id := 1 } (.attack { done := true })
    let fresh : Node := .leaf { id := 1 } (.attack {})
    (volley.init {} 0).1.start {} = (p, [.event (.started 0)]) ∧
      p.fed 2 c = .repeating { active := true, live := true } (some used) false ∧
      (used.start {}).1.remaining (c.drop 2) = 1 ∧
      Iteration p c 2 { active := true, live := true } (used.start {}) ∧
      AsNew (c.drop 2) (used.start {}) (fresh.start {}) := by
  intro volley c p used fresh
  have hremaining : (used.start {}).1.remaining (c.drop 2) = 1 := by
    rw [remaining_of_not_hasStopped rfl, remaining_of_hasStopped rfl, add_zero]
  have hcareer : Career (volley.init {} 0).1 true p := .start {} .checked
  obtain ⟨hfirst, hlaw⟩ := iterations_start_afresh hcareer rfl (c := c) (fun _ => rfl) fun _ => rfl
  obtain ⟨_, hiteration, hnew⟩ := (hlaw 2).2 used rfl
  exact ⟨hfirst (volley.init {} 0).1 {} rfl, rfl, hremaining, hiteration, hnew⟩

end Choreo
