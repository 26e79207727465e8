import Choreo.Proofs.Node.Timing
import Choreo.Proofs.Requests

/-!
# The bullets of a barrage

A barrage counts how many bullets have left and how much time has passed, and an update fires from the
next one up to as many as have come due. So the bullets of a run of updates are numbered without a gap,
whatever the steps are, and what an update fires is known from the updates before it.
-/

namespace Choreo

/-- The time that has been counted after a run of updates. Only a step with duration counts. -/
def clock (run : List Context) : Single :=
  (run.filter (·.1.hasDuration)).foldl (fun t c => t + c.1.step) 0

theorem clock_concat (earlier : List Context) (c : Context) :
    clock (earlier ++ [c]) = if c.1.hasDuration then clock earlier + c.1.step else clock earlier := by
  rw [clock, clock, List.filter_append]
  cases h : c.1.hasDuration <;> simp [h]

theorem Intentions.applyAll_bullets_some {i : Intentions} {g : Gunfire} (hfire : i.fire = some g)
    (directions : List Planar) :
    Write.applyAll i (directions.map .bullet) =
      { i with fire := some { g with directions := g.directions ++ directions } } := by
  rw [applyAll_bullets, hfire]
  rfl

namespace Barrage

/-- What a run of updates makes of a barrage. -/
def played (a : Barrage) (run : List Context) : Barrage :=
  run.foldl (fun a c => (a.update c.1 c.2).1) a

/-- All that a run of updates writes. -/
def written : Barrage → List Context → List Write
  | _, [] => []
  | a, c :: rest => (a.update c.1 c.2).2 ++ ((a.update c.1 c.2).1).written rest

/-- The bullets that leave during a run of updates: the index of each, with the update at which it
leaves. -/
def shots : Barrage → List Context → List (Nat × Context)
  | _, [] => []
  | a, c :: rest =>
    let b := (a.update c.1 c.2).1
    (List.range' a.fired (b.fired - a.fired)).map (·, c) ++ b.shots rest

/-- Where a bullet goes that leaves in some surroundings. -/
def heading (a : Barrage) (index : Nat) (w : Surroundings) : Planar :=
  (a.aim.direction w).rotate (a.angleOf index)

/-- How many bullets are to have left after an update, given the updates before it. -/
def scheduled (a : Barrage) (earlier : List Context) (m : Moment) : Nat :=
  if a.duration ≤ 0 ∨ 0 < a.duration ∧ !m.hasDuration then a.count else a.shotsDue (clock earlier)

variable (a : Barrage)

theorem played_concat (earlier : List Context) (c : Context) :
    a.played (earlier ++ [c]) = ((a.played earlier).update c.1 c.2).1 := by
  rw [played, List.foldl_concat]
  rfl

/-! ### One update -/

section Update

variable {a} (m : Moment) (w : Surroundings)

theorem update_of_isOver (h : a.isOver = true) : a.update m w = (a, []) := by
  rw [update, if_pos h]

/-- What has come due by an update. -/
def due (a : Barrage) (m : Moment) : Nat :=
  if 0 < a.duration ∧ !m.hasDuration then a.count else a.shotsDue a.elapsed

theorem update_of_not_isOver (h : a.isOver = false) :
    a.update m w = ({ a with
      fired := max a.fired (a.due m)
      elapsed := if m.hasDuration then a.elapsed + m.step else a.elapsed }, a.volley w (a.due m)) := by
  rw [update, if_neg (by simp [h])]
  rfl

theorem fired_le_update : a.fired ≤ (a.update m w).1.fired := by
  cases h : a.isOver with
  | true => rw [update_of_isOver m w h]
  | false =>
      rw [update_of_not_isOver m w h]
      exact le_max_left _ _

theorem update_writes :
    (a.update m w).2 =
      (List.range' a.fired ((a.update m w).1.fired - a.fired)).map fun k => .bullet (a.heading k w) := by
  cases h : a.isOver with
  | true => simp [update_of_isOver m w h]
  | false =>
      have hcount : max a.fired (a.due m) - a.fired = a.due m - a.fired := by omega
      rw [update_of_not_isOver m w h, hcount]
      rfl

/-- Nothing that was authored changes. -/
theorem update_authored : ∃ t k, (a.update m w).1 = { a with elapsed := t, fired := k } := by
  cases h : a.isOver with
  | true => exact ⟨a.elapsed, a.fired, by rw [update_of_isOver m w h]⟩
  | false => exact ⟨_, _, by rw [update_of_not_isOver m w h]⟩

theorem update_heading : (a.update m w).1.heading = a.heading := by
  obtain ⟨t, k, h⟩ := update_authored (a := a) m w
  rw [h]
  rfl

end Update

/-! ### A run of updates -/

theorem played_authored (run : List Context) :
    ∃ t k, a.played run = { a with elapsed := t, fired := k } := by
  induction run generalizing a with
  | nil => exact ⟨a.elapsed, a.fired, rfl⟩
  | cons c rest ih =>
      obtain ⟨t, k, hupdate⟩ := update_authored (a := a) c.1 c.2
      obtain ⟨t', k', hrest⟩ := ih { a with elapsed := t, fired := k }
      refine ⟨t', k', ?_⟩
      change ((a.update c.1 c.2).1).played rest = _
      rw [hupdate, hrest]

theorem played_count (run : List Context) : (a.played run).count = a.count := by
  obtain ⟨t, k, h⟩ := a.played_authored run
  rw [h]
  rfl

theorem played_heading (run : List Context) : (a.played run).heading = a.heading := by
  obtain ⟨t, k, h⟩ := a.played_authored run
  rw [h]
  rfl

theorem fired_le_played (run : List Context) : a.fired ≤ (a.played run).fired := by
  induction run generalizing a with
  | nil => exact le_rfl
  | cons c rest ih => exact (fired_le_update c.1 c.2).trans (ih _)

theorem shots_index (run : List Context) :
    (a.shots run).map Prod.fst = List.range' a.fired ((a.played run).fired - a.fired) := by
  induction run generalizing a with
  | nil => simp [shots, played]
  | cons c rest ih =>
      have hupdate : a.fired ≤ (a.update c.1 c.2).1.fired := fired_le_update c.1 c.2
      have hrest := fired_le_played (a.update c.1 c.2).1 rest
      change _ = List.range' a.fired (((a.update c.1 c.2).1.played rest).fired - a.fired)
      rw [shots, List.map_append, List.map_map, ih]
      have hfst : (Prod.fst ∘ fun k : Nat => (k, c)) = id := rfl
      have hjoin : (a.update c.1 c.2).1.fired =
          a.fired + ((a.update c.1 c.2).1.fired - a.fired) := by omega
      rw [hfst, List.map_id]
      nth_rewrite 2 [hjoin]
      rw [List.range'_append_1]
      congr 1
      omega

theorem shots_length (run : List Context) :
    (a.shots run).length = (a.played run).fired - a.fired := by
  rw [← List.length_map Prod.fst, shots_index, List.length_range']

theorem written_eq (run : List Context) :
    a.written run = (a.shots run).map fun s => .bullet (a.heading s.1 s.2.2) := by
  induction run generalizing a with
  | nil => rfl
  | cons c rest ih =>
      rw [written, shots, List.map_append, List.map_map, ih, update_heading, update_writes]
      rfl

/-- All the bullets of a run are pushed, each turned off the aim of the update that fires it. -/
theorem applyAll_written {i : Intentions} {g : Gunfire} (hfire : i.fire = some g)
    (run : List Context) :
    Write.applyAll i (a.written run) =
      { i with fire := some { g with
        directions := g.directions ++ (a.shots run).map fun s => a.heading s.1 s.2.2 } } := by
  rw [written_eq, ← Intentions.applyAll_bullets_some hfire, List.map_map]
  rfl

/-- As long as it is not over, a barrage has counted the time. -/
theorem played_elapsed (run : List Context) (h : (a.start.played run).isOver = false) :
    (a.start.played run).elapsed = clock run := by
  induction run using List.reverseRecOn with
  | nil => rfl
  | append_singleton earlier c ih =>
      rw [played_concat] at h ⊢
      cases hover : (a.start.played earlier).isOver with
      | true =>
          rw [update_of_isOver _ _ hover, hover] at h
          cases h
      | false => rw [update_of_not_isOver _ _ hover, clock_concat, ih hover]

theorem due_played {earlier : List Context} (m : Moment)
    (h : (a.start.played earlier).isOver = false) :
    (a.start.played earlier).due m = a.scheduled earlier m := by
  obtain ⟨t, k, hplayed⟩ := a.start.played_authored earlier
  have ht : t = clock earlier := by simpa [hplayed] using a.played_elapsed earlier h
  have hdue : (a.start.played earlier).due m =
      if 0 < a.duration ∧ !m.hasDuration then a.count else a.shotsDue (clock earlier) := by
    rw [hplayed, ht]
    rfl
  rw [hdue, scheduled]
  by_cases hduration : a.duration ≤ 0
  · have hall : a.shotsDue (clock earlier) = a.count := by
      rw [shotsDue, if_pos (Or.inl hduration)]
      split <;> simp_all
    rw [if_pos (Or.inl hduration), hall, ite_self]
  · simp [hduration]

/-- While it is not over, a barrage keeps up with its schedule. -/
theorem fired_played_concat {earlier : List Context} (c : Context)
    (h : (a.start.played earlier).isOver = false) :
    (a.start.played (earlier ++ [c])).fired =
      max (a.start.played earlier).fired (a.scheduled earlier c.1) := by
  rw [played_concat, update_of_not_isOver _ _ h, ← a.due_played c.1 h]

theorem scheduled_le (hcount : a.count ≤ 2 ^ 24) (earlier : List Context) (m : Moment) :
    a.scheduled earlier m ≤ a.count := by
  rw [scheduled]
  split
  · exact le_rfl
  · exact a.shotsDue_le hcount (clock earlier)

theorem shotsDue_pos (hcount : 0 < a.count) (elapsed : Single) : 0 < a.shotsDue elapsed := by
  rw [shotsDue, if_neg hcount.ne']
  split
  · exact hcount
  · exact Nat.succ_pos _

theorem scheduled_pos (hcount : 0 < a.count) (earlier : List Context) (m : Moment) :
    0 < a.scheduled earlier m := by
  rw [scheduled]
  split
  · exact hcount
  · exact a.shotsDue_pos hcount (clock earlier)

theorem isOver_iff : a.isOver = true ↔ a.count ≤ a.fired := decide_eq_true_iff

/-- What bounds the schedule bounds the bullets that leave. -/
theorem fired_played_le_of {n : ℕ} (hdue : ∀ earlier m, a.scheduled earlier m ≤ n)
    (run : List Context) : (a.start.played run).fired ≤ n := by
  induction run using List.reverseRecOn with
  | nil => exact Nat.zero_le _
  | append_singleton earlier c ih =>
      cases hover : (a.start.played earlier).isOver with
      | true => rwa [played_concat, update_of_isOver _ _ hover]
      | false =>
          rw [a.fired_played_concat c hover]
          exact max_le ih (hdue earlier c.1)

theorem fired_played_le (hcount : a.count ≤ 2 ^ 24) (run : List Context) :
    (a.start.played run).fired ≤ a.count :=
  a.fired_played_le_of (a.scheduled_le hcount) run

/-- The bullets that leave with an update of a barrage, given the updates since its start. -/
def leaving (earlier : List Context) (c : Context) : List Nat :=
  List.range' (a.start.played earlier).fired
    ((a.start.played (earlier ++ [c])).fired - (a.start.played earlier).fired)

/-- What an update of a barrage does, given the updates since its start. -/
structure OnSchedule (earlier : List Context) (c : Context) : Prop where
  /-- The next bullets leave, in order, each turned off the aim of this update. -/
  pushes : ∀ i g, i.fire = some g →
    Write.applyAll i ((a.start.played earlier).update c.1 c.2).2 =
      { i with fire := some { g with
        directions := g.directions ++ (a.leaving earlier c).map (a.heading · c.2) } }
  first : earlier = [] → 0 < a.count →
    ∃ rest, (a.start.update c.1 c.2).2 = .bullet (a.heading 0 c.2) :: rest
  fired : (a.start.played (earlier ++ [c])).fired =
    max (a.start.played earlier).fired (a.scheduled earlier c.1)
  done : (a.start.played earlier).isOver = true ↔ (a.start.played earlier).fired = a.count
  silent : (a.start.played earlier).isOver = true →
    ((a.start.played earlier).update c.1 c.2).2 = []

variable {a}

theorem onSchedule (hcount : a.count ≤ 2 ^ 24) (earlier : List Context) (c : Context) :
    a.OnSchedule earlier c := by
  have hle := a.fired_played_le hcount earlier
  have hover : (a.start.played earlier).isOver = true ↔
      (a.start.played earlier).fired = a.count := by
    rw [isOver_iff, played_count]
    exact ⟨fun h => hle.antisymm h, fun h => h.ge⟩
  have hfired : (a.start.played (earlier ++ [c])).fired =
      max (a.start.played earlier).fired (a.scheduled earlier c.1) := by
    cases h : (a.start.played earlier).isOver with
    | true =>
        have hdone : a.scheduled earlier c.1 ≤ (a.start.played earlier).fired :=
          (a.scheduled_le hcount earlier c.1).trans (hover.mp h).ge
        rw [played_concat, update_of_isOver _ _ h, max_eq_left hdone]
    | false => exact a.fired_played_concat c h
  refine ⟨fun i g hfire => ?_, fun _ hsome => ?_, hfired, hover, fun h => ?_⟩
  · rw [update_writes, played_heading, leaving, played_concat,
      ← Intentions.applyAll_bullets_some hfire, List.map_map]
    rfl
  · have hfresh : (a.start.played []).isOver = false := decide_eq_false (by exact hsome.not_ge)
    have hnew : (a.start.update c.1 c.2).1.fired = max 0 (a.scheduled [] c.1) :=
      a.fired_played_concat c hfresh
    have hpos : 0 < (a.start.update c.1 c.2).1.fired := by
      rw [hnew]
      exact lt_max_of_lt_right (a.scheduled_pos hsome [] c.1)
    obtain ⟨k, hk⟩ := Nat.exists_eq_succ_of_ne_zero hpos.ne'
    rw [update_writes, hk]
    exact ⟨_, rfl⟩
  · rw [update_of_isOver _ _ h]

end Barrage

/-- **A barrage fires without a gap.** Whatever the steps of its updates are, the bullets that leave
are numbered from the first one on, each leaves once and off the aim of the update that fires it, and
how many have left is what the schedule says. -/
theorem barrage_fires_in_order {a : Barrage} (hcount : a.count ≤ 2 ^ 24) :
    (∀ earlier c, a.OnSchedule earlier c) ∧
      ∀ run, (a.start.shots run).map Prod.fst = List.range (a.start.played run).fired ∧
        ∀ i g, i.fire = some g →
          Write.applyAll i (a.start.written run) =
            { i with fire := some { g with
              directions := g.directions ++ (a.start.shots run).map fun s => a.heading s.1 s.2.2 } } := by
  refine ⟨Barrage.onSchedule hcount, fun run =>
    ⟨?_, fun i g hfire => a.start.applyAll_written hfire run⟩⟩
  rw [a.start.shots_index, List.range_eq_range']
  rfl

/-- Three bullets over a second, the last of which leaves when a step has no duration. -/
theorem barrage_fires_in_order_fan :
    let fan : Barrage := ⟨0, 90, 3, 1, .forward, 0, 0⟩
    let run : List Context := [(⟨0, 0.5⟩, {}), (⟨1, 0.5⟩, {}), (⟨2, 0 / 0⟩, {})]
    fan.count ≤ 2 ^ 24 ∧ (fan.start.played [run[0]]).fired = 1 ∧
      (fan.start.shots run).map Prod.fst = [0, 1, 2] ∧
      ((Write.applyAll .all (fan.start.written run)).fire.map (·.directions)) =
        some ((fan.start.shots run).map fun s => fan.heading s.1 s.2.2) := by
  intro fan run
  have hcount : fan.count ≤ 2 ^ 24 := by decide
  have hfirst : (fan.start.played [run[0]]).fired = 1 := by decide +kernel
  have hfired : (fan.start.played run).fired = 3 := by decide +kernel
  obtain ⟨hindex, hpushes⟩ := (barrage_fires_in_order hcount).2 run
  rw [hfired] at hindex
  have hfan := hpushes .all {} rfl
  exact ⟨hcount, hfirst, hindex, by rw [hfan]; rfl⟩

end Choreo
