import Choreo.Proofs.Leaf.Checks
import Choreo.Proofs.Plane
import Choreo.Proofs.Salvos

/-!
# Progress

A leaf measures its progress with singles: the time that has passed, the way that has been covered, the
parameter that has been reached. A rounded sum of amounts is not below either of them, so no update
takes progress back, whatever its step is, and what is over stays over.
-/

namespace Choreo

theorem Moment.exists_step {m : Moment} (h : m.hasDuration = true) :
    ∃ s, m.step.Amounts s ∧ 0 < s ∧ s < 2 ^ 128 :=
  Single.exists_amounts_of_isPositiveFinite h

/-! ### Waiting -/

namespace Wait

variable {a : Wait} {t : ℚ}

theorem update_duration (m : Moment) (a : Wait) : (a.update m).duration = a.duration := by
  rw [update]
  split <;> rfl

/-- A tick does not take back what has passed. -/
theorem elapsed_le_update (h : a.elapsed.Tally t) (m : Moment) :
    ∃ t', (a.update m).elapsed.Tally t' ∧ t ≤ t' := by
  rw [update]
  split
  · next hstep =>
    obtain ⟨s, hs, _⟩ := m.exists_step hstep
    exact h.le_add hs
  · exact ⟨t, h, le_rfl⟩

theorem isOver_update (h : a.elapsed.Tally t) (m : Moment) (hover : a.isOver = true) :
    (a.update m).isOver = true := by
  obtain ⟨t', ht', hle⟩ := elapsed_le_update h m
  obtain ⟨s, hs, _⟩ := Single.exists_amounts_of_isPositiveFinite (x := Moment.slack)
    (by decide +kernel)
  obtain ⟨u, hu, hsum⟩ := h.amounts.add hs
  obtain ⟨u', hu', hsum'⟩ := ht'.amounts.add hs
  have hnonneg : 0 ≤ t + s := add_nonneg h.nonneg (Stands.nonneg hs)
  have hlater : a.elapsed + Moment.slack ≤ (a.update m).elapsed + Moment.slack :=
    (hu.le_iff hu').mpr (hsum.mono hnonneg (by linarith) hsum')
  rw [isOver, decide_eq_true_iff] at hover ⊢
  rw [update_duration]
  exact Single.le_trans hover hlater

end Wait

/-! ### Moving -/

namespace MoveBy

variable {a : MoveBy} {d t : ℚ}

/-- A move on its way, which it does not overshoot. -/
structure OnTheWay (a : MoveBy) (d t : ℚ) : Prop where
  speed : a.speed.isPositiveFinite = true
  distance : a.distance.Tally d
  lt_max : d < 2 ^ 128
  travelled : a.travelled.Tally t
  le : t ≤ d

theorem exists_remaining (h : a.OnTheWay d t) :
    ∃ r, a.remaining.Amounts r ∧ Rounds (d - t) r := by
  have hleft : 0 ≤ d - t := sub_nonneg.mpr h.le
  obtain ⟨r, hr, hrounds⟩ := h.distance.amounts.means.sub h.travelled.amounts.means
    (by rw [abs_of_nonneg h.distance.nonneg]; exact h.lt_max)
    (by rw [abs_of_nonneg h.travelled.nonneg]; exact h.le.trans_lt h.lt_max)
  have hrounds := hrounds.rounds hleft
  have hremaining := (hr.amounts hrounds.nonneg).greater Single.amounts_zero
  rw [max_eq_left hrounds.nonneg] at hremaining
  exact ⟨r, hremaining, hrounds⟩

/-- A step that is too short for what remains does not lead beyond it. -/
theorem step_le_of_not_le {step arrival remaining : Single} {s k r : ℚ} (hs : step.Amounts s)
    (hk : arrival.Amounts k) (hr : remaining.Amounts r) (hrounds : Rounds (d - t) r)
    (hnot : ¬remaining ≤ step + arrival) (hle : t ≤ d) : t + s ≤ d := by
  obtain ⟨u, hu, hsum⟩ := hs.add hk
  have hsu : s ≤ u := (Stands.rounds hs).mono (Stands.nonneg hs)
    (le_add_of_nonneg_right (Stands.nonneg hk)) hsum
  have hshort : u < r := not_le.mp fun h => hnot ((hr.le_iff hu).mpr h)
  by_contra hbeyond
  have hrest : r ≤ s :=
    hrounds.mono (sub_nonneg.mpr hle) (by linarith) (Stands.rounds hs)
  linarith

theorem update_travelled (h : a.OnTheWay d t) (m : Moment) :
    ∃ t', (a.update m).1.OnTheWay d t' ∧ t ≤ t' := by
  have harrived : ({ a with travelled := a.distance } : MoveBy).OnTheWay d d :=
    ⟨h.speed, h.distance, h.lt_max, h.distance, le_rfl⟩
  obtain ⟨r, hr, hrounds⟩ := exists_remaining h
  rw [update]
  split
  · exact ⟨t, h, le_rfl⟩
  split
  · exact ⟨d, harrived, h.le⟩
  · next hstep =>
    obtain ⟨v, hv, hvpos, hvlt⟩ := Single.exists_amounts_of_isPositiveFinite h.speed
    obtain ⟨s, hs, hspos, hslt⟩ := m.exists_step (by simpa using hstep)
    obtain ⟨k, hk, _⟩ := Single.exists_amounts_of_isPositiveFinite (x := arrival)
      (by decide +kernel)
    obtain ⟨w, hw, hproduct⟩ := hv.means.mul hs.means (by rwa [abs_of_pos hvpos])
      (by rwa [abs_of_pos hspos])
    have hw := hw.amounts (hproduct.rounds (by positivity)).nonneg
    simp only
    split
    · exact ⟨d, harrived, h.le⟩
    · next hnot =>
      have hon : t + w ≤ d := step_le_of_not_le hw hk hr hrounds hnot h.le
      obtain ⟨t', ht', hsum⟩ := h.travelled.add hw
      have hnonneg : 0 ≤ t + w := add_nonneg h.travelled.nonneg (Stands.nonneg hw)
      have hend : t' ≤ d := hsum.mono hnonneg hon (Stands.rounds h.distance.amounts)
      have hback : t ≤ t' := (Stands.rounds h.travelled.amounts).mono h.travelled.nonneg
        (le_add_of_nonneg_right (Stands.nonneg hw)) hsum
      exact ⟨t', ⟨h.speed, h.distance, h.lt_max, ht', hend⟩, hback⟩

theorem isOver_iff (h : a.OnTheWay d t) : a.isOver = true ↔ d ≤ t := by
  rw [isOver, decide_eq_true_iff]
  exact h.distance.amounts.le_iff h.travelled.amounts

end MoveBy

/-! ### Following -/

namespace Follower

variable {f g : Follower} {t : ℚ}

/-- The parameter is that of a point of the path. -/
def OnPath (f : Follower) (t : ℚ) : Prop := f.t.Tally t ∧ t ≤ 1

/-- Both stand on the path, and the second not before the first. -/
structure MovesOn (f g : Follower) : Prop where
  nonneg : 0 ≤ f.t
  le : f.t ≤ g.t
  le_one : g.t ≤ 1

theorem MovesOn.trans {k : Follower} (h : f.MovesOn g) (h' : g.MovesOn k) : f.MovesOn k :=
  ⟨h.nonneg, Single.le_trans h.le h'.le, h'.le_one⟩

theorem OnPath.movesOn {t' : ℚ} (h : f.OnPath t) (h' : g.OnPath t') (hle : t ≤ t') :
    f.MovesOn g where
  nonneg := (Single.amounts_zero.le_iff h.1.amounts).mpr h.1.nonneg
  le := (h.1.amounts.le_iff h'.1.amounts).mpr hle
  le_one := (h'.1.amounts.le_iff Single.amounts_one).mpr h'.2

theorem onPath_start (c : Curve) (offset position : Planar) :
    (Follower.start c offset position).OnPath 0 :=
  ⟨Single.tally_zero, zero_le_one⟩

theorem onPath_snapToEnd (f : Follower) : f.snapToEnd.OnPath 1 :=
  ⟨Single.amounts_one.tally one_pos, le_rfl⟩

/-- A sum that is not a number leads to the end, and so does one that is too large. -/
theorem exists_onPath_advance (h : f.OnPath t) {gain : Single} (hgain : gain.Unsigned) (c : Curve)
    (offset : Planar) (step : Single) :
    ∃ t', (f.advance c offset (f.t + gain) step).1.OnPath t' ∧ t ≤ t' := by
  obtain ⟨ht, hle⟩ := h
  have hone : (1 : Single).Tally 1 := Single.amounts_one.tally one_pos
  have hend : (1 : Single).Tally 1 ∧ (1 : ℚ) ≤ 1 := ⟨hone, le_rfl⟩
  change ∃ t', (Single.Tally (if 1 - (f.t + gain) ≤ endSnap then 1
    else (f.t + gain).lesser 1) t' ∧ t' ≤ 1) ∧ t ≤ t'
  split
  · exact ⟨1, hend, hle⟩
  rcases ht.add_unsigned hgain with hnone | ⟨s, hs, hback⟩
  · rw [Single.lesser, if_pos hnone]
    exact ⟨1, hend, hle⟩
  · exact ⟨min s 1, ⟨hs.lesser hone, min_le_right _ _⟩, le_min hback hle⟩

theorem isFinished_iff (h : f.OnPath t) : f.isFinished = true ↔ 1 ≤ t := by
  rw [isFinished, decide_eq_true_iff]
  exact Single.amounts_one.le_iff h.1.amounts

end Follower

namespace FollowPath

variable {a : FollowPath} {t : ℚ}

/-- The rate at which the parameter moves is a number, and not negative. -/
theorem exists_speed (c : Curve) (t step : Single) : ∃ r, (c.speed t step).Means r ∧ |r| < 2 ^ 128 := by
  have hzero : ∃ r, (0 : Single).Means r ∧ |r| < 2 ^ 128 :=
    ⟨0, Single.amounts_zero.means, by norm_num⟩
  rw [Curve.speed]
  split
  · exact hzero
  · simp only
    split
    · next hfinite => exact Single.exists_means hfinite
    · exact hzero

theorem unsigned_gain (hspeed : a.speed.isPositiveFinite = true) {m : Moment}
    (hstep : m.hasDuration = true) {rate : Single} (hfinite : ∃ r, rate.Means r)
    (hrate : ¬rate ≤ leastSpeed) : (a.speed * m.step / rate).Unsigned := by
  obtain ⟨v, hv, _⟩ := Single.exists_amounts_of_isPositiveFinite hspeed
  obtain ⟨s, hs, _⟩ := m.exists_step hstep
  obtain ⟨k, hk, hkpos, _⟩ := Single.exists_amounts_of_isPositiveFinite (x := leastSpeed)
    (by decide +kernel)
  obtain ⟨r, hr⟩ := hfinite
  have hpos : 0 < r := hkpos.trans (not_le.mp fun h => hrate ((hr.le_iff hk.means).mpr h))
  exact (hv.unsigned.mul hs.unsigned).div (hr.amounts hpos.le) hpos

theorem update_onPath (hspeed : a.speed.isPositiveFinite = true) (h : a.follower.OnPath t)
    (m : Moment) (w : Surroundings) :
    ∃ t', (a.update m w).1.follower.OnPath t' ∧ t ≤ t' := by
  rw [update]
  split
  · exact ⟨t, h, le_rfl⟩
  split
  · exact ⟨1, a.follower.onPath_snapToEnd, h.2⟩
  · next hstep =>
    simp only
    split
    · exact ⟨1, a.follower.onPath_snapToEnd, h.2⟩
    · next hrate =>
      obtain ⟨r, hr, _⟩ := exists_speed a.path.point a.follower.t Curve.defaultStep
      have hgain := unsigned_gain hspeed (by simpa using hstep) ⟨r, hr⟩ hrate
      exact Follower.exists_onPath_advance h hgain a.path.point a.offset m.step

theorem update_authored (m : Moment) (w : Surroundings) (a : FollowPath) :
    (a.update m w).1 = { a with follower := (a.update m w).1.follower } := by
  rw [update]
  split
  · rfl
  split
  · rfl
  simp only
  split <;> rfl

end FollowPath

namespace FollowBezier

variable {a : FollowBezier} {t : ℚ}

theorem unsigned_gain (hspeed : a.curveSpeed.Unsigned) (hcurves : 0 < a.path.curves.length)
    {m : Moment} (hstep : m.hasDuration = true) :
    (a.curveSpeed * m.step / a.curveCount).Unsigned := by
  obtain ⟨s, hs, _⟩ := m.exists_step hstep
  obtain ⟨n, hn, hrounds⟩ := Single.amounts_ofCount hcurves
  have hone : Rounds 1 1 := by
    exact_mod_cast (fits_natCast (n := 1) (by norm_num)).rounds (by norm_num)
  have hpos : 0 < n :=
    zero_lt_one.trans_le (hone.mono zero_le_one (by exact_mod_cast hcurves) hrounds)
  exact (hspeed.mul hs.unsigned).div hn hpos

theorem update_onPath (hspeed : a.curveSpeed.Unsigned) (hcurves : 0 < a.path.curves.length)
    (h : a.follower.OnPath t) (m : Moment) (w : Surroundings) :
    ∃ t', (a.update m w).1.follower.OnPath t' ∧ t ≤ t' := by
  rw [update]
  split
  · exact ⟨t, h, le_rfl⟩
  split
  · exact ⟨1, a.follower.onPath_snapToEnd, h.2⟩
  · next hstep =>
    have hgain := unsigned_gain hspeed hcurves (by simpa using hstep)
    exact Follower.exists_onPath_advance h hgain a.path.point a.offset m.step

theorem update_authored (m : Moment) (w : Surroundings) (a : FollowBezier) :
    (a.update m w).1 = { a with follower := (a.update m w).1.follower } := by
  rw [update]
  split
  · rfl
  split <;> rfl

end FollowBezier

/-! ### Shooting -/

namespace Barrage

variable {a : Barrage} {t : ℚ}

theorem elapsed_le_update (h : a.elapsed.Tally t) (m : Moment) (w : Surroundings) :
    ∃ t', (a.update m w).1.elapsed.Tally t' ∧ t ≤ t' := by
  cases hover : a.isOver with
  | true => exact ⟨t, by rwa [update_of_isOver m w hover], le_rfl⟩
  | false =>
      rw [update_of_not_isOver m w hover]
      simp only
      split
      · next hstep =>
        obtain ⟨s, hs, _⟩ := m.exists_step hstep
        exact h.le_add hs
      · exact ⟨t, h, le_rfl⟩

theorem fired_update_le (h : a.count ≤ 2 ^ 24 → a.fired ≤ a.count) (m : Moment) (w : Surroundings)
    (hcount : (a.update m w).1.count ≤ 2 ^ 24) : (a.update m w).1.fired ≤ (a.update m w).1.count := by
  cases hover : a.isOver with
  | true =>
      rw [update_of_isOver m w hover] at hcount ⊢
      exact h hcount
  | false =>
      rw [update_of_not_isOver m w hover] at hcount ⊢
      have hcount : a.count ≤ 2 ^ 24 := hcount
      refine max_le (h hcount) ?_
      change a.due m ≤ a.count
      rw [due]
      split
      · exact le_rfl
      · exact a.shotsDue_le hcount a.elapsed

end Barrage

/-! ### Leaves -/

theorem Bezier.length_pos_of_fault? {b : Bezier} (h : b.fault? = none) : 0 < b.curves.length := by
  rw [fault?] at h
  split at h
  · cases h
  · next hsome => exact List.length_pos_iff.mpr (by simpa using hsome)

/-- The way is finite, and none where there is no direction. -/
theorem MoveBy.onTheWay_start {a b : MoveBy} {w : Surroundings} (h : a.init w = .ok b) :
    ∃ d, b.start.OnTheWay d 0 := by
  obtain ⟨_, hspeed, _, rfl⟩ := ok_of_init h
  cases hdirection : a.vector.normalize? with
  | none =>
      have hzero : (a.vector.normalizeOrZero == .zero) = true := by
        rw [Planar.normalizeOrZero, hdirection]
        decide +kernel
      refine ⟨0, hspeed, ?_, by norm_num, Single.tally_zero, le_rfl⟩
      simp only [start, hzero, if_true]
      exact Single.tally_zero
  | some u =>
      obtain ⟨hfinite, hlong, _⟩ := Planar.of_normalize? hdirection
      obtain ⟨d, hd, hlow, hlt⟩ := Planar.exists_length hfinite hlong
      have hpos : 0 < d := lt_of_lt_of_le (by norm_num) hlow
      by_cases hzero : (a.vector.normalizeOrZero == .zero) = true
      · refine ⟨0, hspeed, ?_, by norm_num, Single.tally_zero, le_rfl⟩
        simp only [start, hzero, if_true]
        exact Single.tally_zero
      · refine ⟨d, hspeed, ?_, hlt, Single.tally_zero, hpos.le⟩
        simp only [start, if_neg hzero]
        exact hd.tally hpos

namespace Leaf

/-- The numbers that a leaf in the course of its run measures its progress with. -/
def Regular : Leaf → Prop
  | wait a => ∃ t, a.elapsed.Tally t
  | moveBy a => ∃ d t, a.OnTheWay d t
  | followPath a => a.speed.isPositiveFinite = true ∧ ∃ t, a.follower.OnPath t
  | followBezier a =>
    a.curveSpeed.Unsigned ∧ 0 < a.path.curves.length ∧ ∃ t, a.follower.OnPath t
  | barrage a => (∃ t, a.elapsed.Tally t) ∧ (a.count ≤ 2 ^ 24 → a.fired ≤ a.count)
  | _ => True

/-- A leaf, and what it may have become since: no progress has been taken back. -/
inductive MovesOn : Leaf → Leaf → Prop
  | wait {a b : Wait} (h : a.elapsed ≤ b.elapsed) : MovesOn (wait a) (wait b)
  | moveBy {a b : MoveBy} (h : b.remaining ≤ a.remaining) (hnonneg : 0 ≤ b.remaining) :
      MovesOn (moveBy a) (moveBy b)
  | followPath {a b : FollowPath} (h : a.follower.MovesOn b.follower) :
      MovesOn (followPath a) (followPath b)
  | followBezier {a b : FollowBezier} (h : a.follower.MovesOn b.follower) :
      MovesOn (followBezier a) (followBezier b)
  | jump {a b : Jump} (h : a.requested = true → b.requested = true) : MovesOn (jump a) (jump b)
  | singleShot {a b : SingleShot} (h : a.fired = true → b.fired = true) :
      MovesOn (singleShot a) (singleShot b)
  | barrage {a b : Barrage} (h : a.fired ≤ b.fired) : MovesOn (barrage a) (barrage b)
  | attack {a b : Attack} (h : a.done = true → b.done = true) : MovesOn (attack a) (attack b)
  | lob {a b : Lob} (h : a.done = true → b.done = true) : MovesOn (lob a) (lob b)
  | walk (a : Walk) : MovesOn (walk a) (walk a)

theorem MovesOn.trans {a b c : Leaf} (h : a.MovesOn b) (h' : b.MovesOn c) : a.MovesOn c := by
  cases h with
  | wait h => cases h' with | wait h' => exact .wait (Single.le_trans h h')
  | moveBy h _ => cases h' with | moveBy h' hnonneg => exact .moveBy (Single.le_trans h' h) hnonneg
  | followPath h => cases h' with | followPath h' => exact .followPath (h.trans h')
  | followBezier h => cases h' with | followBezier h' => exact .followBezier (h.trans h')
  | jump h => cases h' with | jump h' => exact .jump fun hdone => h' (h hdone)
  | singleShot h => cases h' with | singleShot h' => exact .singleShot fun hdone => h' (h hdone)
  | barrage h => cases h' with | barrage h' => exact .barrage (h.trans h')
  | attack h => cases h' with | attack h' => exact .attack fun hdone => h' (h hdone)
  | lob h => cases h' with | lob h' => exact .lob fun hdone => h' (h hdone)
  | walk => exact h'

/-- What is accepted by a check is regular once it has been started. -/
theorem regular_start {a b : Leaf} {w : Surroundings} (h : a.init w = .ok b) (w' : Surroundings) :
    (b.start w').1.Regular := by
  cases a with
  | wait a =>
      obtain ⟨b, _, rfl⟩ := Fault.ok_of_map h
      exact ⟨0, Single.tally_zero⟩
  | moveBy a =>
      obtain ⟨b, hinit, rfl⟩ := Fault.ok_of_map h
      obtain ⟨d, hd⟩ := MoveBy.onTheWay_start hinit
      exact ⟨d, 0, hd⟩
  | followPath a =>
      obtain ⟨b, hinit, rfl⟩ := Fault.ok_of_map h
      obtain ⟨_, hspeed, _, rfl⟩ := FollowPath.ok_of_init hinit
      exact ⟨hspeed, 0, Follower.onPath_start _ _ _⟩
  | followBezier a =>
      obtain ⟨b, hinit, rfl⟩ := Fault.ok_of_map h
      obtain ⟨_, hduration, hpath, rfl⟩ := FollowBezier.ok_of_init hinit
      obtain ⟨d, hd, hpos, _⟩ := Single.exists_amounts_of_isPositiveFinite hduration
      have hcurves : 0 < a.path.curves.length := Bezier.length_pos_of_fault? hpath
      obtain ⟨n, hn, _⟩ := Single.amounts_ofCount hcurves
      exact ⟨hn.unsigned.div hd hpos, hcurves, 0, Follower.onPath_start _ _ _⟩
  | jump a =>
      obtain ⟨b, _, rfl⟩ := Fault.ok_of_map h
      trivial
  | singleShot a =>
      obtain ⟨b, _, rfl⟩ := Fault.ok_of_map h
      trivial
  | barrage a =>
      obtain ⟨b, _, rfl⟩ := Fault.ok_of_map h
      exact ⟨⟨0, Single.tally_zero⟩, fun _ => Nat.zero_le _⟩
  | attack a =>
      obtain ⟨b, _, rfl⟩ := Fault.ok_of_map h
      trivial
  | lob a =>
      obtain ⟨b, _, rfl⟩ := Fault.ok_of_map h
      trivial
  | walk a =>
      obtain ⟨b, _, rfl⟩ := Fault.ok_of_map h
      trivial

theorem movesOn_refl {a : Leaf} (h : a.Regular) : a.MovesOn a := by
  cases a with
  | wait a =>
      obtain ⟨t, ht⟩ := h
      exact .wait ((ht.amounts.le_iff ht.amounts).mpr le_rfl)
  | moveBy a =>
      obtain ⟨d, t, hway⟩ := h
      obtain ⟨r, hr, hrounds⟩ := MoveBy.exists_remaining hway
      exact .moveBy ((hr.le_iff hr).mpr le_rfl)
        ((Single.amounts_zero.le_iff hr).mpr hrounds.nonneg)
  | followPath a =>
      obtain ⟨_, t, hon⟩ := h
      exact .followPath (hon.movesOn hon le_rfl)
  | followBezier a =>
      obtain ⟨_, _, t, hon⟩ := h
      exact .followBezier (hon.movesOn hon le_rfl)
  | jump => exact .jump id
  | singleShot => exact .singleShot id
  | barrage => exact .barrage le_rfl
  | attack => exact .attack id
  | lob => exact .lob id
  | walk a => exact .walk a

/-- What an update makes of a leaf in the course of its run. -/
structure Goes (a b : Leaf) : Prop where
  regular : b.Regular
  movesOn : a.MovesOn b
  isOver : a.isOver = true → b.isOver = true

theorem goes_update {a : Leaf} (h : a.Regular) (m : Moment) (w : Surroundings) :
    a.Goes (a.update m w).1 := by
  cases a with
  | wait a =>
      obtain ⟨t, ht⟩ := h
      obtain ⟨t', ht', hle⟩ := Wait.elapsed_le_update ht m
      exact ⟨⟨t', ht'⟩, .wait ((ht.amounts.le_iff ht'.amounts).mpr hle), Wait.isOver_update ht m⟩
  | moveBy a =>
      obtain ⟨d, t, hway⟩ := h
      obtain ⟨t', hway', hle⟩ := MoveBy.update_travelled hway m
      obtain ⟨r, hr, hrounds⟩ := MoveBy.exists_remaining hway
      obtain ⟨r', hr', hrounds'⟩ := MoveBy.exists_remaining hway'
      have hless : r' ≤ r :=
        hrounds'.mono (sub_nonneg.mpr hway'.le) (by linarith) hrounds
      refine ⟨⟨d, t', hway'⟩, .moveBy ((hr'.le_iff hr).mpr hless)
        ((Single.amounts_zero.le_iff hr').mpr hrounds'.nonneg), fun hover => ?_⟩
      exact (MoveBy.isOver_iff hway').mpr (((MoveBy.isOver_iff hway).mp hover).trans hle)
  | followPath a =>
      obtain ⟨hspeed, t, hon⟩ := h
      obtain ⟨t', hon', hle⟩ := FollowPath.update_onPath hspeed hon m w
      have hspeed' : (a.update m w).1.speed.isPositiveFinite = true := by
        rw [FollowPath.update_authored]
        exact hspeed
      refine ⟨⟨hspeed', t', hon'⟩, .followPath (hon.movesOn hon' hle), fun hover => ?_⟩
      exact (Follower.isFinished_iff hon').mpr (((Follower.isFinished_iff hon).mp hover).trans hle)
  | followBezier a =>
      obtain ⟨hspeed, hcurves, t, hon⟩ := h
      obtain ⟨t', hon', hle⟩ := FollowBezier.update_onPath hspeed hcurves hon m w
      have hauthored : (a.update m w).1.curveSpeed.Unsigned ∧
          0 < (a.update m w).1.path.curves.length := by
        rw [FollowBezier.update_authored]
        exact ⟨hspeed, hcurves⟩
      refine ⟨⟨hauthored.1, hauthored.2, t', hon'⟩, .followBezier (hon.movesOn hon' hle),
        fun hover => ?_⟩
      exact (Follower.isFinished_iff hon').mpr (((Follower.isFinished_iff hon).mp hover).trans hle)
  | jump a =>
      have hkept : a.requested = true → a.update.1.requested = true := by
        intro hdone
        rw [Jump.update, if_pos hdone]
        exact hdone
      exact ⟨trivial, .jump hkept, hkept⟩
  | singleShot a =>
      have hkept : a.fired = true → (a.update w).1.fired = true := by
        intro hdone
        rw [SingleShot.update, if_pos hdone]
        exact hdone
      exact ⟨trivial, .singleShot hkept, hkept⟩
  | barrage a =>
      obtain ⟨⟨t, ht⟩, hle⟩ := h
      have hfired : a.fired ≤ (a.update m w).1.fired := Barrage.fired_le_update m w
      obtain ⟨t', ht', _⟩ := Barrage.elapsed_le_update ht m w
      refine ⟨⟨⟨t', ht'⟩, Barrage.fired_update_le hle m w⟩, .barrage hfired, fun hover => ?_⟩
      change (a.update m w).1.isOver = true
      rw [Barrage.update_of_isOver m w hover]
      exact hover
  | attack a =>
      have hkept : a.done = true → (a.update w).1.done = true := by
        intro hdone
        rw [Attack.update, if_pos hdone]
        exact hdone
      exact ⟨trivial, .attack hkept, hkept⟩
  | lob a =>
      have hkept : a.done = true → (a.update w).1.done = true := by
        intro hdone
        rw [Lob.update, if_pos hdone]
        exact hdone
      exact ⟨trivial, .lob hkept, hkept⟩
  | walk a => exact ⟨trivial, .walk a, id⟩

end Leaf

end Choreo
