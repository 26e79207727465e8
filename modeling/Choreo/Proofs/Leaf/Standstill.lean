import Choreo.Proofs.Duration
import Choreo.Proofs.Leaf.Progress
import Choreo.Proofs.Magazine

/-!
# Standing still

A leaf that is not over adds to its counter with each update. As long as the steps are equal, the one thing
that can keep it from coming to its end is a counter that swallows what is added, and then nothing
changes any more. That takes a leaf that has to come to `2 ^ 24` times what an update adds.
-/

namespace Choreo

/-! ### Nothing but the counters changes -/

theorem Wait.update_authored (m : Moment) (a : Wait) :
    a.update m = { a with elapsed := (a.update m).elapsed } := by
  rw [update]
  split <;> rfl

theorem MoveBy.update_authored (m : Moment) (a : MoveBy) :
    (a.update m).1 = { a with travelled := (a.update m).1.travelled } := by
  rw [update]
  simp only
  split
  · rfl
  split
  · rfl
  split <;> rfl

namespace Leaf

/-- How far a leaf has come: its counter in least amounts, and what it has fired or asked for. -/
def reading : Leaf → ℕ
  | wait a => a.elapsed.units
  | moveBy a => a.travelled.units
  | followPath a => a.follower.t.units
  | followBezier a => a.follower.t.units
  | jump a => a.requested.toNat
  | singleShot a => a.fired.toNat
  | barrage a => a.elapsed.units + a.fired
  | attack a => a.done.toNat
  | lob a => a.done.toNat
  | walk _ => 0

/-- A barrage whose bullets can be counted in singles. -/
def Countable : Leaf → Prop
  | barrage a => a.duration.isFinite = true ∧ a.count ≤ 2 ^ 24
  | _ => True

variable {a : Leaf}

theorem Countable.update (h : a.Countable) (m : Moment) (w : Surroundings) :
    (a.update m w).1.Countable := by
  cases a with
  | barrage a =>
      obtain ⟨t, k, hupdate⟩ := Barrage.update_authored (a := a) m w
      change (a.update m w).1.duration.isFinite = true ∧ (a.update m w).1.count ≤ 2 ^ 24
      rw [hupdate]
      exact h
  | _ => trivial

theorem reading_le_update (h : a.Regular) (m : Moment) (w : Surroundings) :
    a.reading ≤ (a.update m w).1.reading := by
  have hflag : ∀ {b c : Bool}, (b = true → c = true) → b.toNat ≤ c.toNat := by decide
  have hgoes := (goes_update h m w).movesOn
  cases a with
  | wait a =>
      obtain ⟨t, ht⟩ := h
      obtain ⟨t', ht', hle⟩ := Wait.elapsed_le_update ht m
      exact (Single.units_le_iff ht.amounts ht'.amounts).mpr hle
  | moveBy a =>
      obtain ⟨d, t, hway⟩ := h
      obtain ⟨t', hway', hle⟩ := MoveBy.update_travelled hway m
      exact (Single.units_le_iff hway.travelled.amounts hway'.travelled.amounts).mpr hle
  | followPath a =>
      obtain ⟨hspeed, t, hon⟩ := h
      obtain ⟨t', hon', hle⟩ := FollowPath.update_onPath hspeed hon m w
      exact (Single.units_le_iff hon.1.amounts hon'.1.amounts).mpr hle
  | followBezier a =>
      obtain ⟨hspeed, hcurves, t, hon⟩ := h
      obtain ⟨t', hon', hle⟩ := FollowBezier.update_onPath hspeed hcurves hon m w
      exact (Single.units_le_iff hon.1.amounts hon'.1.amounts).mpr hle
  | barrage a =>
      obtain ⟨⟨t, ht⟩, _⟩ := h
      obtain ⟨t', ht', hle⟩ := Barrage.elapsed_le_update ht m w
      exact Nat.add_le_add ((Single.units_le_iff ht.amounts ht'.amounts).mpr hle)
        (Barrage.fired_le_update m w)
  | jump => cases hgoes with | jump hkept => exact hflag hkept
  | singleShot => cases hgoes with | singleShot hkept => exact hflag hkept
  | attack => cases hgoes with | attack hkept => exact hflag hkept
  | lob => cases hgoes with | lob hkept => exact hflag hkept
  | walk => exact le_rfl

theorem reading_le (h : a.Regular) (hcountable : a.Countable) :
    a.reading ≤ 2 ^ 277 + 2 ^ 24 := by
  have hflag : ∀ b : Bool, b.toNat ≤ 2 ^ 277 + 2 ^ 24 := fun b =>
    (Bool.toNat_le b).trans (Nat.le_add_left_of_le (by norm_num))
  cases a with
  | wait a =>
      obtain ⟨t, ht⟩ := h
      exact (Single.units_le_max ht.amounts).trans (Nat.le_add_right _ _)
  | moveBy a =>
      obtain ⟨d, t, hway⟩ := h
      exact (Single.units_le_max hway.travelled.amounts).trans (Nat.le_add_right _ _)
  | followPath a =>
      obtain ⟨_, t, hon⟩ := h
      exact (Single.units_le_max hon.1.amounts).trans (Nat.le_add_right _ _)
  | followBezier a =>
      obtain ⟨_, _, t, hon⟩ := h
      exact (Single.units_le_max hon.1.amounts).trans (Nat.le_add_right _ _)
  | barrage a =>
      obtain ⟨⟨t, ht⟩, hfired⟩ := h
      exact Nat.add_le_add (Single.units_le_max ht.amounts)
        ((hfired hcountable.2).trans hcountable.2)
  | jump a => exact hflag a.requested
  | singleShot a => exact hflag a.fired
  | attack a => exact hflag a.done
  | lob a => exact hflag a.done
  | walk => exact Nat.zero_le _

/-- A leaf whose reading an update leaves as it is has not changed, but for the places it remembers. -/
theorem unplaced_update_of_reading_eq (h : a.Regular) (hover : a.isOver = false) {m : Moment}
    {w : Surroundings} (hsame : (a.update m w).1.reading = a.reading) :
    (a.update m w).1.unplaced = a.unplaced := by
  cases a with
  | wait a =>
      obtain ⟨t, ht⟩ := h
      obtain ⟨t', ht', _⟩ := Wait.elapsed_le_update ht m
      have helapsed : (a.update m).elapsed = a.elapsed := ht'.eq_of_units_eq ht hsame
      change wait (a.update m) = wait a
      rw [Wait.update_authored, helapsed]
  | moveBy a =>
      obtain ⟨d, t, hway⟩ := h
      obtain ⟨t', hway', _⟩ := MoveBy.update_travelled hway m
      have htravelled : (a.update m).1.travelled = a.travelled :=
        hway'.travelled.eq_of_units_eq hway.travelled hsame
      change moveBy (a.update m).1 = moveBy a
      rw [MoveBy.update_authored, htravelled]
  | followPath a =>
      obtain ⟨hspeed, t, hon⟩ := h
      obtain ⟨t', hon', _⟩ := FollowPath.update_onPath hspeed hon m w
      have ht : (a.update m w).1.follower.t = a.follower.t := hon'.1.eq_of_units_eq hon.1 hsame
      change (followPath (a.update m w).1).unplaced = (followPath a).unplaced
      rw [FollowPath.update_authored]
      simp only [unplaced, ht]
  | followBezier a =>
      obtain ⟨hspeed, hcurves, t, hon⟩ := h
      obtain ⟨t', hon', _⟩ := FollowBezier.update_onPath hspeed hcurves hon m w
      have ht : (a.update m w).1.follower.t = a.follower.t := hon'.1.eq_of_units_eq hon.1 hsame
      change (followBezier (a.update m w).1).unplaced = (followBezier a).unplaced
      rw [FollowBezier.update_authored]
      simp only [unplaced, ht]
  | barrage a =>
      obtain ⟨⟨t, ht⟩, _⟩ := h
      obtain ⟨t', ht', hle⟩ := Barrage.elapsed_le_update ht m w
      have hunits := (Single.units_le_iff ht.amounts ht'.amounts).mpr hle
      have hfired : a.fired ≤ (a.update m w).1.fired := Barrage.fired_le_update m w
      have hsum : (a.update m w).1.elapsed.units + (a.update m w).1.fired =
          a.elapsed.units + a.fired := hsame
      have helapsed : (a.update m w).1.elapsed = a.elapsed := ht'.eq_of_units_eq ht (by omega)
      have hfired : (a.update m w).1.fired = a.fired := by omega
      obtain ⟨s, k, hupdate⟩ := Barrage.update_authored (a := a) m w
      change barrage (a.update m w).1 = barrage a
      rw [hupdate] at helapsed hfired ⊢
      simp only at helapsed hfired
      rw [helapsed, hfired]
  | jump a =>
      have hfresh : a.requested = false := hover
      simp [reading, update, Jump.update, hfresh] at hsame
  | singleShot a =>
      have hfresh : a.fired = false := hover
      simp [reading, update, SingleShot.update, hfresh] at hsame
  | attack a =>
      have hfresh : a.done = false := hover
      simp [reading, update, Attack.update, hfresh] at hsame
  | lob a =>
      have hfresh : a.done = false := hover
      simp [reading, update, Lob.update, hfresh] at hsame
  | walk => cases hover

end Leaf

/-! ### Room to come to the end

What a leaf has to come to is less than `2 ^ 24` times what an update adds. -/

theorem Wait.not_swallowed {a : Wait} {t d s : ℚ} {m : Moment} (ht : a.elapsed.Tally t)
    (hd : a.duration.Means d) (hs : m.step.Amounts s) (hstep : m.hasDuration = true)
    (hroom : d ≤ 2 ^ 24 * s) (hover : a.isOver = false) : (a.update m).elapsed ≠ a.elapsed := by
  intro hsame
  rw [update, if_pos hstep] at hsame
  obtain ⟨k, hk, _⟩ := Single.exists_amounts_of_isPositiveFinite (x := Moment.slack)
    (by decide +kernel)
  obtain ⟨u, hu, hle⟩ := ht.le_add hk
  have hlong : t < d := by
    by_contra hpast
    rw [isOver, decide_eq_false_iff_not, hd.le_iff hu.amounts.means] at hover
    exact hover ((not_lt.mp hpast).trans hle)
  have hmax : t < 2 ^ 128 := hlong.trans_le ((le_abs_self d).trans (Denotes.abs_le hd))
  have hswallowed := ht.le_of_add_eq hs hmax hsame
  linarith

theorem MoveBy.not_swallowed {a : MoveBy} {t d s : ℚ} {m : Moment} (hway : a.OnTheWay d t)
    (hs : (a.speed * m.step).Amounts s) (hroom : d ≤ 2 ^ 24 * s) (hover : a.isOver = false) :
    (a.update m).1.travelled ≠ a.travelled := by
  have hshort : t < d := not_le.mp fun h => by simp [(isOver_iff hway).mpr h] at hover
  have harrived : a.distance ≠ a.travelled := by
    intro h
    have hsame : d = t := Stands.eq hway.distance.amounts (h ▸ hway.travelled.amounts)
    exact hshort.ne' hsame
  obtain ⟨r, hr, hrounds⟩ := exists_remaining hway
  rw [update]
  split
  -- What remains is not so little that it is rounded to nothing.
  · next hnothing =>
    have hleast : leastPlace ≤ r := rounds_leastPlace.mono leastPlace_pos.le
      (hway.travelled.amounts.leastPlace_le_sub hway.distance.amounts hshort) hrounds
    exact absurd ((hr.le_iff Single.amounts_zero).mp hnothing)
      (not_le.mpr (leastPlace_pos.trans_le hleast))
  split
  · exact harrived
  simp only
  split
  · exact harrived
  · intro hsame
    have hswallowed := hway.travelled.le_of_add_eq hs (hshort.trans hway.lt_max) hsame
    linarith

theorem Follower.not_swallowed {f : Follower} {t : ℚ} {gain : Single} (hon : f.OnPath t)
    (hgain : gain.Unsigned) (hroom : ∀ g, gain.Amounts g → 1 ≤ 2 ^ 24 * g)
    (hover : f.isFinished = false) (c : Curve) (offset : Planar) (step : Single) :
    (f.advance c offset (f.t + gain) step).1.t ≠ f.t := by
  have hshort : t < 1 := not_le.mp fun h => by simp [(isFinished_iff hon).mpr h] at hover
  have hend : (1 : Single) ≠ f.t := fun h =>
    hshort.ne' (Stands.eq Single.amounts_one (h ▸ hon.1.amounts))
  change (if 1 - (f.t + gain) ≤ endSnap then 1 else (f.t + gain).lesser 1) ≠ f.t
  split
  · exact hend
  rw [Single.lesser]
  split
  · exact hend
  · next hnumber =>
    split
    · exact hend
    · intro hsame
      rcases hgain with hnone | ⟨g, hg⟩
      · exact hnumber (Single.isNaN_add f.t (Single.isNaN_iff.mpr hnone))
      · have hswallowed := hon.1.le_of_add_eq hg (hshort.trans (by norm_num)) hsame
        have hroom := hroom g hg
        linarith

theorem Barrage.not_swallowed {a : Barrage} {t d s : ℚ} {m : Moment} (w : Surroundings)
    (ht : a.elapsed.Tally t) (hd : a.duration.Means d) (hfinite : a.duration.isFinite = true)
    (hs : m.step.Amounts s) (hstep : m.hasDuration = true) (hcount : a.count ≤ 2 ^ 24)
    (hroom : 2 * d ≤ 2 ^ 24 * s) (hover : a.isOver = false) :
    (a.update m w).1.elapsed ≠ a.elapsed ∨ (a.update m w).1.fired ≠ a.fired := by
  have hleft : a.fired < a.count := by
    rw [isOver, decide_eq_false_iff_not] at hover
    exact not_le.mp hover
  have hpos : 0 < a.count := (Nat.zero_le _).trans_lt hleft
  have hmax : a.count ≤ 2 ^ 31 := hcount.trans (by norm_num)
  by_contra hsame
  rw [update_of_not_isOver m w hover, not_or, not_not, not_not] at hsame
  obtain ⟨hsame, hfired⟩ := hsame
  simp only [hstep, if_true] at hsame
  have hdue : a.due m ≤ a.fired := by
    simp only at hfired
    exact max_eq_left_iff.mp hfired
  have hall : a.due m = a.magazine := by
    rw [due, if_neg (by simp [hstep])]
    by_cases htimed : a.duration ≤ 0 ∨ a.count = 1
    · exact shotsDue_of_untimed hpos htimed _
    · obtain ⟨d', hd', _⟩ := Single.exists_amounts_pos hfinite (not_or.mp htimed).1
      obtain rfl : d' = d := hd'.means.eq hd
      obtain ⟨twice, htwice, hdouble⟩ := hd'.add hd'
      have hlate : twice ≤ t := by
        rcases (Stands.le_max ht.amounts).eq_or_lt with hendless | hmax
        · exact hendless ▸ hdouble.le_max
        · have hswallowed := ht.le_of_add_eq hs hmax hsame
          have hnonneg : 0 ≤ d' + d' := add_nonneg (Stands.nonneg hd') (Stands.nonneg hd')
          exact hdouble.mono hnonneg (by linarith) (Stands.rounds ht.amounts)
      exact shotsDue_eq_magazine hpos hmax hfinite
        ((Single.amounts_zero.le_iff ht.amounts).mpr ht.nonneg) ((htwice.le_iff ht.amounts).mpr hlate)
  have hmagazine : a.magazine = a.count :=
    (magazine_eq_count_iff hpos hmax hfinite).mpr
      (Or.inr (fits_natCast ((Nat.sub_le _ _).trans hcount)))
  omega

theorem FollowPath.not_swallowed {a : FollowPath} {t : ℚ} {m : Moment} (w : Surroundings)
    (hspeed : a.speed.isPositiveFinite = true) (hon : a.follower.OnPath t)
    (hstep : m.hasDuration = true) (hroom : ∀ x g,
      (a.speed * m.step / Curve.speed a.path.point x Curve.defaultStep).Amounts g → 1 ≤ 2 ^ 24 * g)
    (hover : a.isOver = false) : (a.update m w).1.follower.t ≠ a.follower.t := by
  have hfinished : a.follower.isFinished = false := hover
  rw [update, if_neg (by simp [hfinished]), if_neg (by simp [hstep])]
  simp only
  split
  · intro hend
    have hlast := (Follower.isFinished_iff a.follower.onPath_snapToEnd).mpr le_rfl
    rw [Follower.isFinished, hend] at hlast
    rw [Follower.isFinished, hlast] at hfinished
    cases hfinished
  · next hrate =>
    obtain ⟨r, hr, _⟩ := exists_speed a.path.point a.follower.t Curve.defaultStep
    exact Follower.not_swallowed hon (unsigned_gain hspeed hstep ⟨r, hr⟩ hrate) (hroom _) hfinished
      a.path.point a.offset m.step

theorem FollowBezier.not_swallowed {a : FollowBezier} {t : ℚ} {m : Moment} (w : Surroundings)
    (hspeed : a.curveSpeed.Unsigned) (hcurves : 0 < a.path.curves.length) (hon : a.follower.OnPath t)
    (hstep : m.hasDuration = true)
    (hroom : ∀ g, (a.curveSpeed * m.step / a.curveCount).Amounts g → 1 ≤ 2 ^ 24 * g)
    (hover : a.isOver = false) : (a.update m w).1.follower.t ≠ a.follower.t := by
  have hfinished : a.follower.isFinished = false := hover
  rw [update, if_neg (by simp [hfinished]), if_neg (by simp [hstep])]
  exact Follower.not_swallowed hon (unsigned_gain hspeed hcurves hstep) hroom hfinished
    a.path.point a.offset m.step

/-! ### Leaves -/

namespace Leaf

/-- The leaf is not over, and an update of such a length leaves it as it is, but for the places it
remembers. -/
def StandsStill (step : Single) (a : Leaf) : Prop :=
  a.isOver = false ∧ ∀ m w, m.step = step → (a.update m w).1.unplaced = a.unplaced

/-- What the leaf has to come to is at most `2 ^ 24` times what an update of such a length adds. -/
def HasRoom (step : Single) : Leaf → Prop
  | wait a => ∃ d s, a.duration.Means d ∧ step.Amounts s ∧ d ≤ 2 ^ 24 * s
  | moveBy a => ∃ d s, a.distance.Amounts d ∧ (a.speed * step).Amounts s ∧ d ≤ 2 ^ 24 * s
  | followPath a => ∀ t g, (a.speed * step / Curve.speed a.path.point t Curve.defaultStep).Amounts g →
      1 ≤ 2 ^ 24 * g
  | followBezier a => ∀ g, (a.curveSpeed * step / a.curveCount).Amounts g → 1 ≤ 2 ^ 24 * g
  | barrage a => ∃ d s, a.duration.Means d ∧ step.Amounts s ∧ 2 * d ≤ 2 ^ 24 * s
  | _ => True

variable {a : Leaf} {step : Single}

theorem HasRoom.update (h : a.HasRoom step) (m : Moment) (w : Surroundings) :
    (a.update m w).1.HasRoom step := by
  cases a with
  | wait a =>
      change HasRoom step (wait (a.update m))
      rw [Wait.update_authored]
      exact h
  | moveBy a =>
      change HasRoom step (moveBy (a.update m).1)
      rw [MoveBy.update_authored]
      exact h
  | followPath a =>
      change HasRoom step (followPath (a.update m w).1)
      rw [FollowPath.update_authored]
      exact h
  | followBezier a =>
      change HasRoom step (followBezier (a.update m w).1)
      rw [FollowBezier.update_authored]
      exact h
  | barrage a =>
      obtain ⟨t, k, hupdate⟩ := Barrage.update_authored (a := a) m w
      change HasRoom step (barrage (a.update m w).1)
      rw [hupdate]
      exact h
  | _ => trivial

theorem not_standsStill (h : a.Regular) (hcountable : a.Countable)
    (hstep : step.isPositiveFinite = true) (hroom : a.HasRoom step) : ¬a.StandsStill step := by
  rintro ⟨hover, hstill⟩
  obtain ⟨m, hm⟩ : ∃ m : Moment, m = ⟨0, step⟩ := ⟨_, rfl⟩
  have hduration : m.hasDuration = true := by rw [hm]; exact hstep
  have hlength : m.step = step := by rw [hm]
  have hsame := hstill m {} hlength
  cases a with
  | wait a =>
      obtain ⟨t, ht⟩ := h
      obtain ⟨d, s, hd, hs, hroom⟩ := hroom
      have hself : a.update m = a := wait.inj hsame
      exact Wait.not_swallowed ht hd (hlength ▸ hs) hduration hroom hover
        (congrArg Wait.elapsed hself)
  | moveBy a =>
      obtain ⟨d, t, hway⟩ := h
      obtain ⟨d', s, hd, hs, hroom⟩ := hroom
      obtain rfl : d' = d := Stands.eq hd hway.distance.amounts
      have hself : (a.update m).1 = a := moveBy.inj hsame
      exact MoveBy.not_swallowed hway (hlength ▸ hs) hroom hover (congrArg MoveBy.travelled hself)
  | followPath a =>
      obtain ⟨hspeed, t, hon⟩ := h
      have hself := congrArg (·.follower.t) (followPath.inj hsame)
      exact FollowPath.not_swallowed {} hspeed hon hduration (hlength ▸ hroom) hover hself
  | followBezier a =>
      obtain ⟨hspeed, hcurves, t, hon⟩ := h
      have hself := congrArg (·.follower.t) (followBezier.inj hsame)
      exact FollowBezier.not_swallowed {} hspeed hcurves hon hduration (hlength ▸ hroom) hover hself
  | barrage a =>
      obtain ⟨⟨t, ht⟩, _⟩ := h
      obtain ⟨d, s, hd, hs, hroom⟩ := hroom
      have hself : (a.update m {}).1 = a := barrage.inj hsame
      rcases Barrage.not_swallowed {} ht hd hcountable.1 (hlength ▸ hs) hduration hcountable.2 hroom
        hover with hchanged | hchanged
      · exact hchanged (congrArg Barrage.elapsed hself)
      · exact hchanged (congrArg Barrage.fired hself)
  | jump a =>
      have hfresh : a.requested = false := hover
      have hdone : a.update.1.requested = a.requested := congrArg Jump.requested (jump.inj hsame)
      simp [Jump.update, hfresh] at hdone
  | singleShot a =>
      have hfresh : a.fired = false := hover
      have hdone : (a.update {}).1.fired = a.fired :=
        congrArg SingleShot.fired (singleShot.inj hsame)
      simp [SingleShot.update, hfresh] at hdone
  | attack a =>
      have hfresh : a.done = false := hover
      have hdone : (a.update {}).1.done = a.done := congrArg Attack.done (attack.inj hsame)
      simp [Attack.update, hfresh] at hdone
  | lob a =>
      have hfresh : a.done = false := hover
      have hdone : (a.update {}).1.done = a.done := congrArg Lob.done (lob.inj hsame)
      simp [Lob.update, hfresh] at hdone
  | walk => cases hover

end Leaf

end Choreo
