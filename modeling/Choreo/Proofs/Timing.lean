import Choreo.Proofs.Node.Timing
import Choreo.Proofs.Script.Forest
import Choreo.Proofs.Session

/-!
# The timing law

A script whose entity stays active takes as long as its duration says. A tree script has left what
its root has left, and a flat script what a sequence of its actions would have; the driver counts the
same ticks, and sees that the script is over in the one after them.
-/

namespace Choreo

namespace Script

noncomputable def remaining (script : Script) (c : Stream' Context) : ℕ∞ :=
  lifetime (hasStopped {}) (fun x script => (script.update x.1 x.2).1) c script

theorem hasStopped_of_active {w : Surroundings} (hw : w.active = true) (script : Script) :
    script.hasStopped w = script.hasStopped {} := by
  cases script with
  | tree root => exact Node.hasStopped_of_active hw root
  | flat actions cursor => simp [hasStopped, hw]

theorem remaining_tree (c : Stream' Context) (root : Node) :
    (tree root).remaining c = root.remaining c := by
  let like : Script → Node → Prop := fun script n => script = tree n
  have hspent : ∀ script n, like script n → hasStopped {} script = Node.hasStopped {} n := by
    rintro _ n rfl
    rfl
  have hstep : ∀ (x : Context) script n, like script n →
      like (script.update x.1 x.2).1 (n.update x.1 x.2).1 := by
    rintro x _ n rfl
    rfl
  have h := lifetime_congr (s := c) (fun x => x) like hspent hstep (rfl : like (tree root) root)
  have hid : c.map (fun x => x) = c := Stream'.map_id c
  rw [hid] at h
  exact h

theorem remaining_flat {c : Stream' Context} (hc : Attended c) (actions : List Node)
    (cursor : Cursor) : (flat actions cursor).remaining c = Node.leftInTurn c cursor actions := by
  let fair : Stream' Context → Script → Prop := fun c script => Attended c ∧
    ∃ actions cursor, script = flat actions cursor
  let left : Stream' Context → Script → ℕ∞ := fun c script => match script with
    | flat actions cursor => Node.leftInTurn c cursor actions
    | _ => 0
  refine lifetime_eq fair left ?_ ?_ ⟨hc, _, _, rfl⟩
  · rintro c script ⟨_, actions, cursor, rfl⟩ hstop
    have hcursor : cursor.isFinished = true := by simpa [hasStopped] using hstop
    exact Node.leftInTurn_of_isFinished hcursor actions
  · rintro c script ⟨hc, actions, cursor, rfl⟩ hgoes
    have hcursor : cursor.isFinished = false := by simpa [hasStopped] using hgoes
    have hstep : Node.WalksInStep c cursor actions := Node.walksInStep hc hcursor fun k _ => k.timed
    exact ⟨⟨hc.tail, _, _, rfl⟩, hstep.left⟩

theorem timeInTurn_filter {nodes : List Node} (p : Node → Bool)
    (hnodes : ∀ n ∈ nodes, p n = false → n.header.able = false) (s : Stream' Moment) :
    Node.timeInTurn (nodes.filter p) s = Node.timeInTurn nodes s := by
  induction nodes generalizing s with
  | nil => rfl
  | cons n rest ih =>
      have hrest := fun s => ih (fun k hk => hnodes k (by simp [hk])) s
      cases hn : p n with
      | true => rw [List.filter_cons_of_pos hn, Node.timeInTurn, Node.timeInTurn, hrest]
      | false =>
          have hzero : n.time s = 0 := Node.time_of_not_able (hnodes n (by simp) hn) s
          rw [List.filter_cons_of_neg (by simp [hn]), Node.timeInTurn, hzero, hrest]
          simp

theorem remaining_start {c : Stream' Context} (hc : Attended c) (w : Surroundings)
    (script : Script) :
    (((script.init w).1.start w).1).remaining c = (script.init w).1.time (moments c) := by
  cases script with
  | tree root =>
      have htimed := (root.init w 0).1.timed w c hc
      rw [← remaining_tree] at htimed
      exact htimed
  | flat actions cursor =>
      have hactions : ∀ n ∈ (Node.initFlatAll w 0 actions).1,
          (!n.isComposite) = false → n.header.able = false := by
        intro n hn hcomposite
        obtain ⟨hflat, _⟩ := Node.flat_of_mem_initFlatAll w hn
        obtain ⟨hfault, _⟩ := hflat (by simpa using hcomposite)
        simp [Header.able, Option.isNone_eq_false_iff.mpr hfault]
      have htime := timeInTurn_filter _ hactions (moments c)
      change (flat (Node.initFlatAll w 0 actions).1 (.ready 0)).remaining c = 1 + _
      rw [remaining_flat hc, htime]
      rfl

end Script

/-! ### Drivers -/

namespace Driver

def feed (x : Context) (d : Driver) : Driver := (d.tick x.1 x.2).1

theorem after_feed_of_not_running {d : Driver} (hstatus : d.status ≠ .running) (k : ℕ)
    (c : Stream' Context) : after feed k c d = d := by
  induction k generalizing c with
  | zero => rfl
  | succ k ih =>
      have hfeed : feed c.head d = d := by
        rw [feed, tick_of_not_running _ _ hstatus]
      rw [after, hfeed, ih]

theorem after_feed_status {d : Driver} {script : Script} (hstatus : d.status = .running)
    (hscript : d.script = some script) {c : Stream' Context} (hc : Attended c) (k : ℕ) :
    ((k : ℕ∞) ≤ script.remaining c → (after feed k c d).status = .running) ∧
      (script.remaining c < k → (after feed k c d).status = .finished) := by
  induction k generalizing c d script with
  | zero => exact ⟨fun _ => hstatus, fun h => absurd h (by simp)⟩
  | succ k ih =>
      have hactive := script.hasStopped_of_active hc.head
      cases hstop : script.hasStopped {} with
      | true =>
          rw [hstop] at hactive
          have htick := tick_of_hasStopped c.head.1 c.head.2 hstatus hscript hactive
          have hfeed : (feed c.head d).status = .finished := by
            rw [feed, htick, hc.head]
            rfl
          have hzero : script.remaining c = 0 := lifetime_of_spent hstop
          have hafter : after feed k c.tail (feed c.head d) = feed c.head d :=
            after_feed_of_not_running (by simp [hfeed]) k c.tail
          rw [hzero, after, hafter, hfeed]
          refine ⟨fun hle => ?_, fun _ => rfl⟩
          simp at hle
      | false =>
          rw [hstop] at hactive
          have htick := tick_of_not_hasStopped c.head.1 c.head.2 hstatus hscript hactive
          have hleft : script.remaining c =
              1 + (script.update c.head.1 c.head.2).1.remaining c.tail :=
            lifetime_of_not_spent hstop
          have hrunning : (feed c.head d).status = .running := by rw [feed, htick]; exact hstatus
          have hnext : (feed c.head d).script = some (script.update c.head.1 c.head.2).1 := by
            rw [feed, htick]
          obtain ⟨hle, hlt⟩ := ih hrunning hnext hc.tail
          rw [hleft, after, Nat.cast_add, Nat.cast_one, add_comm (k : ℕ∞),
            ENat.add_le_add_iff_left ENat.one_ne_top, ENat.add_lt_add_iff_left ENat.one_ne_top]
          exact ⟨hle, hlt⟩

end Driver

/-- **The timing law.** A driver that has found a script and is then ticked while its entity stays
active runs for as many ticks as the script takes, and finishes in the next one. -/
theorem timing_law {d : Driver} {override : Option Script} {script : Script}
    (hscript : (override <|> d.default) = some script) (w : Surroundings) {c : Stream' Context}
    (hc : Attended c) (k : ℕ) :
    ((k : ℕ∞) ≤ (script.init w).1.time (moments c) →
        (after Driver.feed k c (d.activate w override).1.1).status = .running) ∧
      ((script.init w).1.time (moments c) < k →
        (after Driver.feed k c (d.activate w override).1.1).status = .finished) := by
  have hstop := d.stop_status_ne_running
  have hfound : (override <|> d.stop.1.default) = some script := by
    rw [d.stop_default]
    exact hscript
  rw [Driver.activate_eq, Driver.activate_of_some w hstop hfound, ← script.remaining_start hc w]
  exact Driver.after_feed_status rfl rfl hc k

/-- A walk, which takes no time, and a strike, which takes one tick. -/
def sortie : Script :=
  .tree (.sequence {} [.leaf {} (.walk ⟨0⟩), .leaf {} (.attack {})] (.ready 0))

theorem timing_law_sortie :
    let c : Stream' Context := Stream'.const (⟨0, 0⟩, {})
    let d : Driver := ((⟨some sortie, none, .idle, {}⟩ : Driver).activate {} none).1.1
    (after Driver.feed 2 c d).status = .running ∧ (after Driver.feed 3 c d).status = .finished := by
  intro c d
  have hscript : (none <|> (⟨some sortie, none, .idle, {}⟩ : Driver).default) = some sortie := rfl
  have hwalk : (Leaf.walk ⟨0⟩).time (moments c) = 0 := lifetime_of_spent rfl
  have hattack : ∀ s, (Leaf.attack {}).time s = 1 := by
    intro s
    rw [Leaf.time, lifetime_of_not_spent rfl, lifetime_of_spent rfl, add_zero]
  have hable : ∀ i, Header.able { id := i } = true := fun _ => rfl
  have htime : (sortie.init {}).1.time (moments c) = 2 := by
    change (Node.sequence {} [.leaf { id := 1 } (.walk ⟨0⟩), .leaf { id := 2 } (.attack {})]
      (.ready 0)).time (moments c) = 2
    rw [Node.time, if_pos (hable 0), Node.timeInTurn, Node.timeInTurn, Node.timeInTurn, Node.time,
      if_pos (hable 1), Node.time, if_pos (hable 2), hwalk, hattack, zero_add, add_zero,
      one_add_one_eq_two]
  have hlaw := timing_law hscript {} (c := c) fun _ => rfl
  rw [htime] at hlaw
  refine ⟨(hlaw 2).1 le_rfl, (hlaw 3).2 ?_⟩
  exact_mod_cast Nat.lt_succ_self 2

end Choreo
