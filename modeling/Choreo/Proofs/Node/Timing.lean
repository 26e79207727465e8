import Choreo.Proofs.Duration

/-!
# The timing of a tree

How many updates a node has left is its lifetime. For each kind of composite a formula in terms of its
children counts down with it, and the formula of a node that has just been started is its duration.
-/

namespace Choreo

abbrev Context := Moment × Surroundings

def Attended (c : Stream' Context) : Prop := ∀ k, (c.get k).2.active = true

def moments (c : Stream' Context) : Stream' Moment := c.map Prod.fst

theorem Attended.tail {c : Stream' Context} (h : Attended c) : Attended c.tail :=
  fun k => h (k + 1)

theorem Attended.head {c : Stream' Context} (h : Attended c) : c.head.2.active = true := h 0

namespace Node

theorem hasStopped_of_active {w : Surroundings} (hw : w.active = true) (n : Node) :
    n.hasStopped w = n.hasStopped {} := by
  simp [hasStopped, hw]

theorem hasStopped_of_not_able {n : Node} (h : n.header.able = false) (w : Surroundings) :
    (n.start w).1.hasStopped {} = true := by
  rw [Header.able, Bool.and_eq_false_iff] at h
  rcases h with h | h
  · simp [hasStopped, Header.opened, h]
  · simp [hasStopped, Header.opened, Option.isNone_eq_false_iff.mp h]

/-- How many updates a node has left before it has stopped. -/
noncomputable def remaining (n : Node) (c : Stream' Context) : ℕ∞ :=
  lifetime (hasStopped {}) (fun x n => (n.update x.1 x.2).1) c n

variable {c : Stream' Context} {n : Node}

theorem remaining_of_hasStopped (h : n.hasStopped {} = true) : n.remaining c = 0 :=
  lifetime_of_spent h

theorem remaining_of_not_hasStopped (h : n.hasStopped {} = false) :
    n.remaining c = 1 + (n.update c.head.1 c.head.2).1.remaining c.tail :=
  lifetime_of_not_spent h

/-- The duration of a node is what it has left when it has been started. -/
def Timed (n : Node) : Prop :=
  ∀ w c, Attended c → (n.start w).1.remaining c = n.time (moments c)

theorem time_of_not_able (h : n.header.able = false) (s : Stream' Moment) : n.time s = 0 := by
  cases n with
  | leaf => rw [time, if_neg (by simpa [header] using h)]
  | sequence => rw [time, if_neg (by simpa [header] using h)]
  | parallel =>
      rw [time, if_neg]
      simpa [header] using fun hable => absurd (h.symm.trans hable) (by simp)
  | repeating => rw [time, if_neg (by simpa [header] using h)]

theorem timed_of_not_able (h : n.header.able = false) : n.Timed := by
  intro w c _
  rw [time_of_not_able h, remaining_of_hasStopped (hasStopped_of_not_able h w)]

/-! ### Leaves and repeating nodes -/

theorem timed_leaf {h : Header} (hable : h.able = true) (a : Leaf) : (leaf h a).Timed := by
  intro w c _
  rw [start_leaf w h hable, time, if_pos hable, Leaf.time]
  let like : Node → Leaf → Prop := fun n b =>
    ∃ h a, n = leaf h a ∧ h.Going ∧ a.unplaced = b.unplaced
  refine lifetime_congr Prod.fst like ?_ ?_ ⟨_, _, rfl, h.going_opened hable, a.start_unplaced w⟩
  · rintro n b ⟨h, a, rfl, hgoing, hab⟩
    rw [hasStopped_of_going {} (by exact hgoing), Bool.not_true, Bool.false_or]
    calc a.isOver = a.unplaced.isOver := a.isOver_unplaced.symm
      _ = b.unplaced.isOver := by rw [hab]
      _ = b.isOver := b.isOver_unplaced
  · rintro x n b ⟨h, a, rfl, hgoing, hab⟩
    rw [update_leaf, if_pos hgoing.live]
    exact ⟨h, _, rfl, hgoing, Leaf.update_unplaced x.1 x.2 {} hab⟩

theorem timed_repeating {h : Header} (hable : h.able = true) (child : Option Node)
    (running : Bool) : (repeating h child running).Timed := by
  intro w c _
  rw [start_repeating w h hable, time, if_pos hable, remaining]
  let fair : Stream' Context → Node → Prop := fun _ n =>
    n.header.Going ∧ ∃ h child running, n = repeating h child running
  refine lifetime_eq fair (fun _ _ => ⊤) ?_ ?_ ⟨h.going_opened hable, _, _, _, rfl⟩
  · rintro s n ⟨hgoing, h, child, running, rfl⟩ hstop
    rw [hasStopped_of_going {} hgoing, Bool.not_true, Bool.false_or] at hstop
    simp [isComplete] at hstop
  · rintro s n ⟨hgoing, h, child, running, rfl⟩ _
    refine ⟨⟨by simpa using hgoing, ?_⟩, rfl⟩
    cases child with
    | none => exact ⟨_, _, _, by rw [update_vacant]⟩
    | some child =>
        cases running with
        | true => exact ⟨_, _, _, by rw [update_repeating_running _ _ h hgoing.live]⟩
        | false => exact ⟨_, _, _, by rw [update_repeating_resting _ _ h hgoing.live]⟩

/-! ### Sequences -/

end Node

/-- The children that a sequence has not started yet. -/
def Cursor.awaiting : Cursor → List Node → List Node
  | .finished _, _ => []
  | .ready next, nodes => nodes.drop next
  | .running index, nodes => nodes.drop (index + 1)

theorem Cursor.awaiting_shift (cursor : Cursor) (n : Node) (rest : List Node) :
    cursor.shift.awaiting (n :: rest) = cursor.awaiting rest := by
  cases cursor <;> rfl

namespace Node

/-- What a sequence has left: one tick, the rest of the child that runs, and the children to come. A
cursor that points past the last child never gets anywhere. -/
noncomputable def leftInTurn (c : Stream' Context) : Cursor → List Node → ℕ∞
  | .finished _, _ => 0
  | .ready next, nodes => 1 + timeInTurn (nodes.drop next) (moments c)
  | .running index, nodes =>
    match nodes.drop index with
    | [] => ⊤
    | n :: rest => 1 + (n.remaining c + timeInTurn rest ((moments c).drop (n.remaining c).toNat))

theorem leftInTurn_of_isFinished {cursor : Cursor} (h : cursor.isFinished = true)
    (nodes : List Node) : leftInTurn c cursor nodes = 0 := by
  cases cursor <;> simp_all [Cursor.isFinished, leftInTurn]

theorem leftInTurn_shift (c : Stream' Context) (cursor : Cursor) (n : Node) (rest : List Node) :
    leftInTurn c cursor.shift (n :: rest) = leftInTurn c cursor rest := by
  cases cursor <;> rfl

theorem leftInTurn_of_hasStopped (h : n.hasStopped {} = true) (rest : List Node) :
    leftInTurn c (.running 0) (n :: rest) = leftInTurn c (.ready 0) rest := by
  simp [leftInTurn, remaining_of_hasStopped h]

theorem leftInTurn_of_not_hasStopped (h : n.hasStopped {} = false) (rest : List Node) :
    leftInTurn c (.running 0) (n :: rest) =
      1 + leftInTurn c.tail (.running 0) ((n.update c.head.1 c.head.2).1 :: rest) := by
  have hremaining := remaining_of_not_hasStopped (c := c) h
  rw [leftInTurn, leftInTurn]
  simp only [List.drop_zero]
  rw [hremaining]
  cases hleft : (n.update c.head.1 c.head.2).1.remaining c.tail with
  | top => simp
  | coe k =>
      have hsum : ((1 : ℕ∞) + (k : ℕ∞)).toNat = 1 + k := by
        rw [← Nat.cast_one, ← Nat.cast_add, ENat.toNat_natCast]
      have hdrop : (moments c).drop (1 + k) = (moments c.tail).drop k := by
        rw [Nat.add_comm]
        rfl
      rw [hsum, hdrop, ENat.toNat_natCast, add_assoc]

theorem leftInTurn_ready (hc : Attended c) (htimed : n.Timed) (w : Surroundings)
    (rest : List Node) :
    leftInTurn c (.ready 0) (n :: rest) = leftInTurn c (.running 0) ((n.start w).1 :: rest) := by
  simp only [leftInTurn, List.drop_zero, timeInTurn]
  rw [htimed w c hc]

/-- A tick of a sequence takes one off what it has left, and starts no child but those to come. -/
structure WalksInStep (c : Stream' Context) (cursor : Cursor) (nodes : List Node) : Prop where
  left : leftInTurn c cursor nodes =
    1 + leftInTurn c.tail (walk c.head.1 c.head.2 cursor nodes).2.1
      (walk c.head.1 c.head.2 cursor nodes).1
  awaiting : ∀ k ∈ (walk c.head.1 c.head.2 cursor nodes).2.1.awaiting
    (walk c.head.1 c.head.2 cursor nodes).1, k.Timed

theorem WalksInStep.shift {cursor : Cursor} {rest : List Node} (h : WalksInStep c cursor rest)
    (n : Node) : WalksInStep c cursor.shift (n :: rest) := by
  constructor
  · rw [walk_shift, leftInTurn_shift, leftInTurn_shift]
    exact h.left
  · rw [walk_shift, Cursor.awaiting_shift]
    exact h.awaiting

/-- A child that has stopped lets the sequence walk on from it in the same tick. -/
theorem WalksInStep.running (hc : Attended c) {rest : List Node} (hrest : ∀ k ∈ rest, k.Timed)
    (hnext : WalksInStep c (.ready 0) rest) (n : Node) :
    WalksInStep c (.running 0) (n :: rest) := by
  have hstopped := hasStopped_of_active hc.head n
  cases hstop : n.hasStopped {} with
  | true =>
      rw [hstop] at hstopped
      constructor
      · rw [walk_running, if_pos hstopped, leftInTurn_of_hasStopped hstop, leftInTurn_shift]
        exact hnext.left
      · rw [walk_running, if_pos hstopped, Cursor.awaiting_shift]
        exact hnext.awaiting
  | false =>
      rw [hstop] at hstopped
      constructor
      · rw [walk_running, if_neg (by simp [hstopped]), leftInTurn_of_not_hasStopped hstop]
      · rw [walk_running, if_neg (by simp [hstopped])]
        exact hrest

theorem walksInStep (hc : Attended c) {nodes : List Node} {cursor : Cursor}
    (hcursor : cursor.isFinished = false) (hawaiting : ∀ k ∈ cursor.awaiting nodes, k.Timed) :
    WalksInStep c cursor nodes := by
  induction cursor, nodes using Cursor.walkInduction with
  | nil cursor =>
      cases cursor with
      | finished => simp [Cursor.isFinished] at hcursor
      | ready next =>
          constructor <;> simp [walk, leftInTurn, timeInTurn, Cursor.awaiting]
      | running index =>
          constructor <;> simp [walk, leftInTurn, Cursor.awaiting]
  | finished next nodes => simp [Cursor.isFinished] at hcursor
  | shift cursor n rest ih =>
      have hbefore : cursor.isFinished = false := by simpa using hcursor
      rw [Cursor.awaiting_shift] at hawaiting
      exact (ih hbefore hawaiting).shift n
  | running n rest ih =>
      have hrest : ∀ k ∈ rest, k.Timed := hawaiting
      exact .running hc hrest (ih rfl hrest) n
  | ready n rest ih =>
      have hn : n.Timed := hawaiting n (by simp [Cursor.awaiting])
      have hrest : ∀ k ∈ rest, k.Timed := fun k hk => hawaiting k (by simp [Cursor.awaiting, hk])
      have hstarted : WalksInStep c (.running 0) ((n.start c.head.2).1 :: rest) :=
        ih (n.start c.head.2).1 rfl hrest
      constructor
      · rw [walk_ready, leftInTurn_ready hc hn c.head.2]
        exact hstarted.left
      · rw [walk_ready]
        exact hstarted.awaiting

theorem timed_sequence {h : Header} (hable : h.able = true) {nodes : List Node}
    (hnodes : ∀ n ∈ nodes, n.Timed) (cursor : Cursor) : (sequence h nodes cursor).Timed := by
  intro w c hc
  rw [start_sequence w h hable, time, if_pos hable, remaining]
  let fair : Stream' Context → Node → Prop := fun c n => Attended c ∧ n.header.Going ∧
    ∃ h nodes cursor, n = sequence h nodes cursor ∧ ∀ k ∈ cursor.awaiting nodes, k.Timed
  let left : Stream' Context → Node → ℕ∞ := fun c n => match n with
    | sequence _ nodes cursor => leftInTurn c cursor nodes
    | _ => 0
  refine lifetime_eq fair left ?_ ?_ ⟨hc, h.going_opened hable, _, _, _, rfl, hnodes⟩
  · rintro c n ⟨_, hgoing, h, nodes, cursor, rfl, _⟩ hstop
    rw [hasStopped_of_going {} hgoing, Bool.not_true, Bool.false_or] at hstop
    exact leftInTurn_of_isFinished hstop nodes
  · rintro c n ⟨hc, hgoing, h, nodes, cursor, rfl, hawaiting⟩ hgoes
    rw [hasStopped_of_going {} hgoing, Bool.not_true, Bool.false_or] at hgoes
    have hcursor : cursor.isFinished = false := hgoes
    obtain ⟨hleft, hafter⟩ := walksInStep hc hcursor hawaiting
    have hupdate := update_sequence c.head.1 c.head.2 h hgoing.live nodes cursor
    refine ⟨⟨hc.tail, by simpa using hgoing, ?_⟩, ?_⟩
    · exact ⟨h, _, _, by rw [hupdate], hafter⟩
    · simp only [left, hupdate]
      exact hleft

/-! ### Parallels -/

/-- What a parallel has left: the longest of the children that run, and a tick to notice its end. A
mark for a child that is not there is never taken back. -/
noncomputable def leftAtOnce (c : Stream' Context) : List Bool → List Node → ℕ∞
  | [], _ => 0
  | true :: _, [] => ⊤
  | false :: running, [] => leftAtOnce c running []
  | true :: running, n :: rest => max (1 + n.remaining c) (leftAtOnce c running rest)
  | false :: running, _ :: rest => leftAtOnce c running rest

theorem leftAtOnce_of_all_not {running : List Bool} (h : running.all not = true)
    (nodes : List Node) : leftAtOnce c running nodes = 0 := by
  induction running generalizing nodes with
  | nil => rfl
  | cons flag running ih =>
      rw [List.all_cons, Bool.and_eq_true] at h
      obtain ⟨hflag, hrest⟩ := h
      obtain rfl : flag = false := by simpa using hflag
      cases nodes with
      | nil => exact ih hrest []
      | cons n rest => exact ih hrest rest

theorem one_le_leftAtOnce {running : List Bool} (h : running.all not = false)
    (nodes : List Node) : 1 ≤ leftAtOnce c running nodes := by
  induction running generalizing nodes with
  | nil => simp at h
  | cons flag running ih =>
      cases flag with
      | true =>
          cases nodes with
          | nil => exact le_top
          | cons n rest => exact le_max_of_le_left le_self_add
      | false =>
          have hrest : running.all not = false := by simpa using h
          cases nodes with
          | nil => exact ih hrest []
          | cons n rest => exact ih hrest rest

theorem remaining_visit (hc : Attended c) (n : Node) :
    n.remaining c = if (n.visit c.head.1 c.head.2).2.1 then
      1 + (n.visit c.head.1 c.head.2).1.remaining c.tail else 0 := by
  have hstopped := hasStopped_of_active hc.head n
  cases hstop : n.hasStopped {} with
  | true =>
      rw [hstop] at hstopped
      rw [visit_of_hasStopped _ _ hstopped, remaining_of_hasStopped hstop]
      rfl
  | false =>
      rw [hstop] at hstopped
      rw [visit_of_not_hasStopped _ _ hstopped, remaining_of_not_hasStopped hstop]
      rfl

theorem leftAtOnce_updateRunning (hc : Attended c) (running : List Bool) (nodes : List Node) :
    max 1 (leftAtOnce c running nodes) =
      1 + leftAtOnce c.tail (updateRunning c.head.1 c.head.2 false running nodes).2.1
        (updateRunning c.head.1 c.head.2 false running nodes).1 := by
  induction running generalizing nodes with
  | nil => simp [updateRunning, leftAtOnce]
  | cons flag running ih =>
      cases nodes with
      | nil =>
          have hnil : updateRunning c.head.1 c.head.2 false (flag :: running) [] =
              ([], flag :: running, []) := by
            simp [updateRunning]
          have hrest := ih []
          rw [show updateRunning c.head.1 c.head.2 false running [] = ([], running, []) by
            simp [updateRunning]] at hrest
          rw [hnil]
          cases flag with
          | true => simp [leftAtOnce]
          | false => exact hrest
      | cons n rest =>
          have hrest := ih rest
          cases flag with
          | false =>
              rw [updateRunning_resting]
              exact hrest
          | true =>
              rw [updateRunning_running]
              have hvisit := remaining_visit hc n
              cases hgoes : (n.visit c.head.1 c.head.2).2.1 with
              | true =>
                  rw [hgoes, if_pos rfl] at hvisit
                  rw [leftAtOnce, leftAtOnce, max_left_comm, hrest, hvisit, max_add_add_left]
              | false =>
                  rw [hgoes, if_neg (by simp)] at hvisit
                  rw [leftAtOnce, leftAtOnce, ← hrest, hvisit, add_zero, ← max_assoc, max_self]

theorem leftAtOnce_startAll (hc : Attended c) (w : Surroundings) {nodes : List Node}
    (hnodes : ∀ n ∈ nodes, n.Timed) :
    leftAtOnce c (nodes.map fun _ => true) (nodes.map fun n => (n.start w).1) =
      if nodes.isEmpty then 0 else 1 + timeAtOnce nodes (moments c) := by
  induction nodes with
  | nil => rfl
  | cons n rest ih =>
      have hrest := ih fun k hk => hnodes k (by simp [hk])
      rw [List.map_cons, List.map_cons, leftAtOnce, hrest, hnodes n (by simp) w c hc, timeAtOnce]
      cases rest with
      | nil => simp [timeAtOnce]
      | cons k rest =>
          simp only [List.isEmpty_cons, Bool.false_eq_true, if_false]
          rw [max_add_add_left]

theorem timed_parallel {h : Header} (hable : h.able = true) {nodes : List Node}
    (hnodes : ∀ n ∈ nodes, n.Timed) (running : List Bool) :
    (parallel h nodes running).Timed := by
  intro w c hc
  have htime : (parallel h nodes running).time (moments c) =
      leftAtOnce c (nodes.map fun _ => true) (nodes.map fun n => (n.start w).1) := by
    rw [leftAtOnce_startAll hc w hnodes, time, hable]
    cases nodes.isEmpty <;> rfl
  rw [start_parallel w h hable, htime, remaining]
  let fair : Stream' Context → Node → Prop := fun c n => Attended c ∧ n.header.Going ∧
    ∃ h nodes running, n = parallel h nodes running
  let left : Stream' Context → Node → ℕ∞ := fun c n => match n with
    | parallel _ nodes running => leftAtOnce c running nodes
    | _ => 0
  refine lifetime_eq fair left ?_ ?_ ⟨hc, h.going_opened hable, _, _, _, rfl⟩
  · rintro c n ⟨_, hgoing, h, nodes, running, rfl⟩ hstop
    rw [hasStopped_of_going {} hgoing, Bool.not_true, Bool.false_or] at hstop
    exact leftAtOnce_of_all_not hstop nodes
  · rintro c n ⟨hc, hgoing, h, nodes, running, rfl⟩ hgoes
    rw [hasStopped_of_going {} hgoing, Bool.not_true, Bool.false_or] at hgoes
    have hupdate := update_parallel c.head.1 c.head.2 h hgoing.live nodes running
    refine ⟨⟨hc.tail, by simpa using hgoing, ?_⟩, ?_⟩
    · exact ⟨h, _, _, by rw [hupdate]⟩
    · simp only [left, hupdate]
      rw [← leftAtOnce_updateRunning hc, max_eq_right (one_le_leftAtOnce hgoes nodes)]

theorem timed (n : Node) : n.Timed := by
  induction n with
  | node n ih =>
      cases hable : n.header.able with
      | false => exact timed_of_not_able hable
      | true =>
        cases n with
        | leaf h a => exact timed_leaf hable a
        | sequence h nodes cursor => exact timed_sequence hable ih cursor
        | parallel h nodes running => exact timed_parallel hable ih running
        | repeating h child running => exact timed_repeating hable child running

end Node

end Choreo
