import Choreo.Proofs.Path.Points

/-!
# Keeping to a speed

A follower estimates how fast its parameter moves by a short look ahead. On an even path the estimate is not
far below the ideal rate, so no tick takes the parameter much further than the speed allows.
-/

namespace Choreo

open Float.Model (Format UnpackedFloat)

namespace Single

variable {x y : Single}

theorem isFinite_of_div (h : (x / y).isFinite = true) : x.isFinite = true := by
  have hquotient : (UnpackedFloat.div .binary32 x.toModel.unpack y.toModel.unpack).isFinite = true :=
    isFinite_of_repack h
  change x.toModel.unpack.isFinite = true
  generalize x.toModel.unpack = u at hquotient ⊢
  generalize y.toModel.unpack = v at hquotient
  cases u <;> cases v <;> first | rfl | cases hquotient

theorem amounts_number (h : x.isPositiveFinite = true) :
    x.Amounts x.number ∧ 0 < x.number ∧ x.number < 2 ^ 128 := by
  obtain ⟨r, hr, hpos, hlt⟩ := exists_amounts_of_isPositiveFinite h
  rw [hr.means.number_eq (by rwa [abs_of_pos hpos])]
  exact ⟨hr, hpos, hlt⟩

theorem number_ofCount {n : ℕ} (hpos : 0 < n) (h : n ≤ 2 ^ 24) : (Single.ofCount n).number = n := by
  refine (amounts_ofCount_of_le hpos h).means.number_eq ?_
  rw [abs_of_nonneg n.cast_nonneg]
  exact_mod_cast h.trans_lt (by norm_num)

end Single

/-! ### Probing -/

theorem Curve.amounts_defaultStep : Curve.defaultStep.Amounts (8589935 * 2 ^ (-33 : ℤ)) := by
  exact_mod_cast Single.amounts_of_unpack (x := Curve.defaultStep) (m := 8589935) (h := by norm_num) rfl

theorem Follower.amounts_endSnap : Follower.endSnap.Amounts (13743895 * 2 ^ (-37 : ℤ)) := by
  exact_mod_cast Single.amounts_of_unpack (x := Follower.endSnap) (m := 13743895) (h := by norm_num) rfl

/-- Before the end of a curve, the look ahead is about a thousandth of the parameter long. -/
theorem Curve.exists_next {t : Single} {r probe : ℚ} (ht : t.InUnit r) (hprobe : probe ≤ 99 / 100000)
    (hr : r + probe ≤ 1) :
    ∃ next, ((t + Curve.defaultStep).lesser 1).InUnit next ∧ probe ≤ next - r ∧
      next - r ≤ 102 / 100000 := by
  have hr0 : 0 ≤ r := Stands.nonneg ht.1
  obtain ⟨sum, hsum, hrounds⟩ := ht.1.add Curve.amounts_defaultStep
  have hvalue : (8589935 : ℚ) * 2 ^ (-33 : ℤ) = 8589935 / 2 ^ 33 := by norm_num
  rw [hvalue] at hrounds
  have herror := (hrounds.roundsTo (by positivity)).error_le (b := 2) (by
    rw [abs_of_nonneg (by positivity)]
    linarith [ht.2]) (by norm_num)
  have hleast : leastPlace ≤ 1 / 2 ^ 100 := by norm_num [leastPlace]
  obtain ⟨hlow, hhigh⟩ := abs_le.mp herror
  refine ⟨min sum 1, ⟨hsum.lesser Single.amounts_one, min_le_right _ _⟩, ?_, ?_⟩
  · have hahead : r + probe ≤ min sum 1 := le_min (by linarith) hr
    linarith
  · linarith [min_le_left sum 1]

theorem cast_sub_le_of_rounded {q q' : ℚ} {b : ℝ} (herror : |q - q'| ≤ |q'| / 2 ^ 24 + leastPlace)
    (hle : |(q' : ℝ)| ≤ b) : |(q : ℝ) - q'| ≤ b / 2 ^ 24 + (leastPlace : ℚ) := by
  have herror := (Rat.cast_le (K := ℝ)).mpr herror
  push_cast at herror
  linarith

/-- A computed distance is not far below the exact one. -/
theorem Planar.le_distance {a b : Planar} {p : ℚ} (ha : a.isFinite = true) (hb : b.isFinite = true)
    (hfinite : (a.distance b).isFinite = true) (hp : 1 / 2 ^ 50 ≤ p)
    (hfar : (p : ℝ) * (1 + 1 / 2 ^ 10) ≤ ‖a.place - b.place‖) :
    ∃ d, (a.distance b).Amounts d ∧ p - p / 2 ^ 24 ≤ d := by
  have hrange : ∀ {x : Single}, x.isFinite = true → x.Means x.number ∧ |x.number| < 2 ^ 128 :=
    fun h => ⟨Single.means_number h, (Single.means_number h).isFinite_iff.mp h⟩
  obtain ⟨hax, hay⟩ := Bool.and_eq_true_iff.mp ha
  obtain ⟨hbx, hby⟩ := Bool.and_eq_true_iff.mp hb
  obtain ⟨hx, hy⟩ := isFinite_of_length hfinite
  obtain ⟨r, hr, hrounds⟩ := (hrange hax).1.sub (hrange hbx).1 (hrange hax).2 (hrange hbx).2
  obtain ⟨s, hs, hrounds'⟩ := (hrange hay).1.sub (hrange hby).1 (hrange hay).2 (hrange hby).2
  have hrerror := hrounds.error_le_of_lt (hr.isFinite_iff.mp hx)
  have hserror := hrounds'.error_le_of_lt (hs.isFinite_iff.mp hy)
  have hx' := cast_sub_le_of_rounded hrerror (by
    push_cast
    exact Complex.abs_re_le_norm (a.place - b.place))
  have hy' := cast_sub_le_of_rounded hserror (by
    push_cast
    exact Complex.abs_im_le_norm (a.place - b.place))
  have hp' : (1 / 2 ^ 50 : ℝ) ≤ p := by
    have hp := (Rat.cast_le (K := ℝ)).mpr hp
    push_cast at hp
    exact hp
  have hleast : ((leastPlace : ℚ) : ℝ) ≤ 1 / 2 ^ 100 := by norm_num [leastPlace]
  have hfar' : (p : ℝ) * (1 + 1 / 2 ^ 11) ≤ ‖(⟨r, s⟩ : ℂ)‖ := by
    have hnear : ‖(⟨r, s⟩ : ℂ) - (a.place - b.place)‖ ≤
        2 * (‖a.place - b.place‖ / 2 ^ 24 + (leastPlace : ℚ)) := by
      refine (Complex.norm_le_abs_re_add_abs_im _).trans ?_
      push_cast at hx' hy'
      have hsum := add_le_add hx' hy'
      rw [← two_mul] at hsum
      exact hsum
    have htriangle := norm_sub_norm_le (a.place - b.place) (⟨r, s⟩ : ℂ)
    rw [norm_sub_rev (a.place - b.place)] at htriangle
    linarith
  have hsquare : (p : ℝ) * (1 + 1 / 2 ^ 11) * (p * (1 + 1 / 2 ^ 11)) ≤ r * r + s * s := by
    have hnorm : ‖(⟨r, s⟩ : ℂ)‖ * ‖(⟨r, s⟩ : ℂ)‖ = r * r + s * s := by
      rw [Complex.norm_mul_self_eq_normSq, Complex.normSq_mk]
    rw [← hnorm]
    exact mul_self_le_mul_self (by positivity) hfar'
  have hsquare : p * (1 + 1 / 2 ^ 11) * (p * (1 + 1 / 2 ^ 11)) ≤ r * r + s * s := by
    refine (Rat.cast_le (K := ℝ)).mp ?_
    push_cast
    exact hsquare
  obtain ⟨d, hd, hdlt⟩ := Single.exists_means hfinite
  have hlow := le_length hfinite hr hs hd hp (by nlinarith [mul_self_nonneg p])
  exact ⟨d, hd.amounts (by linarith), hlow⟩

namespace Path

variable {path : Path} {k : Bounds} {t : Single} {r probe : ℚ}

/-- A rate that a look ahead of at least `probe` does not fall short of. -/
def estimate (path : Path) (k : Bounds) (probe : ℚ) : ℚ :=
  99 / 100 * k.least - 21 / 10 * path.blur k / probe

variable (hfault : path.fault? = none) (heven : path.Even k)
include hfault heven

/-- A point a little further on is nearly as far away as the least rate takes it. -/
theorem Even.exists_distance {t' : Single} {r' : ℚ} (ht : t.InUnit r) (ht' : t'.InUnit r')
    (hprobe : 1 / 10000 ≤ probe) (hlow : probe ≤ r' - r) (hhigh : r' - r ≤ 102 / 100000)
    (hsure : k.least / 2 ≤ path.estimate k probe)
    (hfinite : ((path.point t').distance (path.point t)).isFinite = true) :
    ∃ d, ((path.point t').distance (path.point t)).Amounts d ∧
      (1 + 1 / 2 ^ 20) * (path.estimate k probe * (r' - r)) ≤ d := by
  have hleast := heven.least
  have hblur := heven.blur_nonneg hfault
  have hahead := near_ideal hfault heven ht'
  have hhere := near_ideal hfault heven ht
  have hprobepos : 0 < probe := lt_of_lt_of_le (by norm_num) hprobe
  have hstretch := heven.le_ideal hfault (Stands.nonneg ht.1) (by linarith : r < r') ht'.2 (by linarith)
  have hway : 1 / 2 ^ 45 ≤ path.estimate k probe * (r' - r) :=
    calc (1 / 2 ^ 45 : ℚ)
      _ ≤ 1 / 2 ^ 31 * (1 / 10000) := by norm_num
      _ ≤ path.estimate k probe * (r' - r) := by gcongr <;> linarith
  -- Over a stretch that is longer than the probe, the blur counts for less.
  have hscaled : path.estimate k probe * (r' - r) ≤
      99 / 100 * (k.least * (r' - r)) - 21 / 10 * path.blur k := by
    have hshare : 21 / 10 * path.blur k ≤ 21 / 10 * path.blur k / probe * (r' - r) :=
      calc 21 / 10 * path.blur k
        _ = 21 / 10 * path.blur k / probe * probe := (div_mul_cancel₀ _ hprobepos.ne').symm
        _ ≤ 21 / 10 * path.blur k / probe * (r' - r) := by gcongr
    rw [estimate, sub_mul, mul_assoc]
    linarith
  obtain ⟨p, hp⟩ : ∃ p, p = 999 / 1000 * (k.least * (r' - r) - 2 * path.blur k) := ⟨_, rfl⟩
  have hfar : (p : ℝ) * (1 + 1 / 2 ^ 10) ≤ ‖(path.point t').place - (path.point t).place‖ := by
    have htriangle := norm_sub_le_norm_sub_add_norm_sub (path.ideal r') (path.point t').place
      (path.ideal r)
    have htriangle' := norm_sub_le_norm_sub_add_norm_sub (path.point t').place (path.point t).place
      (path.ideal r)
    have hnear := hahead.le
    rw [norm_sub_rev] at hnear
    have hnorm := norm_nonneg ((path.point t').place - (path.point t).place)
    push_cast [hp] at hstretch ⊢
    linarith [hhere.le]
  obtain ⟨d, hd, hdlow⟩ := Planar.le_distance hahead.finite hhere.finite hfinite (by linarith) hfar
  exact ⟨d, hd, by linarith⟩

/-- Before the end of the path, the estimate is not far below the least rate. -/
theorem Even.exists_rate (ht : t.InUnit r) (hprobe : 1 / 10000 ≤ probe) (hprobe' : probe ≤ 99 / 100000)
    (hr : r + probe ≤ 1) (hsure : k.least / 2 ≤ path.estimate k probe)
    (hrate : ¬Curve.speed path.point t Curve.defaultStep ≤ FollowPath.leastSpeed) :
    ∃ rate, (Curve.speed path.point t Curve.defaultStep).Amounts rate ∧
      path.estimate k probe ≤ rate ∧ rate < 2 ^ 128 := by
  obtain ⟨next, hnext, hlow, hhigh⟩ := Curve.exists_next ht hprobe' hr
  have hr0 : 0 ≤ r := Stands.nonneg ht.1
  have hleast := heven.least
  have hplace : leastPlace ≤ 1 / 2 ^ 100 := by norm_num [leastPlace]
  have hzero : (0 : Single) ≤ FollowPath.leastSpeed := by decide +kernel
  obtain ⟨span, hspan, hrounds⟩ := hnext.1.means.sub ht.1.means
    (by rw [abs_of_nonneg (by linarith)]; exact hnext.2.trans_lt (by norm_num))
    (by rw [abs_of_nonneg hr0]; exact ht.2.trans_lt (by norm_num))
  have herror := hrounds.error_le (abs_of_nonneg (by linarith)).le (by linarith)
  obtain ⟨hspanlow, hspanhigh⟩ := abs_le.mp herror
  have hspanpos : 0 < span := by linarith
  rw [Curve.speed, ht.clampUnit] at hrate ⊢
  simp only at hrate ⊢
  split at hrate
  · exact absurd hzero hrate
  rw [if_neg ‹_›]
  split at hrate
  swap
  · exact absurd hzero hrate
  next hfinite =>
  rw [if_pos hfinite]
  obtain ⟨d, hd, hdlow⟩ := heven.exists_distance hfault ht hnext hprobe hlow hhigh hsure
    (Single.isFinite_of_div hfinite)
  have hdlt : d < 2 ^ 128 := Stands.lt_of_isFinite hd (Single.isFinite_of_div hfinite)
  have hd0 : 0 ≤ d := Stands.nonneg hd
  obtain ⟨rate, hmeans, hrounded⟩ := hd.means.div hspan (by rwa [abs_of_nonneg hd0])
    (by rw [abs_of_pos hspanpos]; linarith [hnext.2]) hspanpos.ne'
  have hrounded := hrounded.rounds (by positivity)
  have hratelt : rate < 2 ^ 128 := (le_abs_self rate).trans_lt (hmeans.isFinite_iff.mp hfinite)
  have hquotient : (1 + 1 / 2 ^ 21) * path.estimate k probe ≤ d / span := by
    rw [le_div_iff₀ hspanpos]
    have hpos : 0 ≤ path.estimate k probe := by linarith
    have hspan' : path.estimate k probe * span ≤
        path.estimate k probe * ((1 + 1 / 2 ^ 22) * (next - r)) := by
      gcongr
      linarith
    have hway : 0 ≤ path.estimate k probe * (next - r) := mul_nonneg hpos (by linarith)
    linarith
  have hlost := (abs_sub_le_iff.mp (hrounded.error_le (by positivity) hratelt)).2
  have hmax := max_half_le (x := d / span) (by positivity)
  exact ⟨rate, hmeans.amounts hrounded.nonneg, by linarith, hratelt⟩

/-- Computed points are no further apart than the greatest rate allows, or little further. -/
theorem Even.norm_sub_le {t' : Single} {r' : ℚ} (ht : t.InUnit r) (ht' : t'.InUnit r') (hle : r ≤ r') :
    ‖(path.point t').place - (path.point t).place‖ ≤
      (k.greatest * (r' - r) + 2 * path.blur k : ℚ) := by
  have hstretch := heven.ideal_le hfault (Stands.nonneg ht.1) hle ht'.2
  have hhere := (near_ideal hfault heven ht).le
  have hthere := (near_ideal hfault heven ht').le
  have htriangle := norm_sub_le_norm_sub_add_norm_sub (path.point t').place (path.ideal r') (path.point t).place
  have htriangle' := norm_sub_le_norm_sub_add_norm_sub (path.ideal r') (path.ideal r) (path.point t).place
  rw [norm_sub_rev] at hhere
  push_cast at hstretch ⊢
  linarith

end Path

/-! ### Advancing -/

namespace Follower

variable {f : Follower} {c : Curve} {offset : Planar} {t r : ℚ}

/-- An advance does not lead far beyond the parameter that is asked for. -/
theorem OnPath.le_goal {goal step : Single} {g : ℚ} (hg : goal.Amounts g)
    (hr : (f.advance c offset goal step).1.OnPath r) : r ≤ g + 13743896 / 2 ^ 37 := by
  rcases le_or_gt 1 g with hbeyond | hbefore
  · linarith [hr.2]
  have hg0 : 0 ≤ g := Stands.nonneg hg
  have hmeans : (if 1 - goal ≤ endSnap then 1 else goal.lesser 1 : Single).Means r := hr.1.amounts.means
  split at hmeans
  · next hsnap =>
    obtain rfl : r = 1 := hmeans.eq Single.amounts_one.means
    obtain ⟨left, hleft, hrounds⟩ := Single.amounts_one.means.sub hg.means (by norm_num)
      (by rw [abs_of_nonneg hg0]; linarith)
    have hsnapped := (hleft.le_iff amounts_endSnap.means).mp hsnap
    by_contra hfar
    -- One last place above the snap.
    have hfits : Rounds (13743896 / 2 ^ 37) (13743896 / 2 ^ 37) :=
      Fits.rounds ⟨13743896, -37, by norm_num, by norm_num, by norm_num⟩ (by norm_num)
    have hkept := hfits.mono (by norm_num) (by linarith) (hrounds.rounds (by linarith))
    have hvalue : (13743895 : ℚ) * 2 ^ (-37 : ℤ) = 13743895 / 2 ^ 37 := by norm_num
    rw [hvalue] at hsnapped
    linarith
  · have hlesser := hg.lesser Single.amounts_one
    rw [min_eq_left hbefore.le] at hlesser
    rw [hmeans.eq hlesser.means]
    linarith

/-- A tick takes the parameter as far as the speed allows at the rate that is assumed, or little further. -/
theorem OnPath.sub_le {speed step rate : Single} {p s q e : ℚ} (ht : f.OnPath t)
    (hspeed : speed.Amounts p) (hp : p < 2 ^ 128) (hstep : step.Amounts s) (hs : s < 2 ^ 128)
    (hrate : rate.Amounts q) (heq : e ≤ q) (hq : q < 2 ^ 128) (hlow : 1 / 2 ^ 31 ≤ e)
    (hhigh : e ≤ 2 ^ 101) (hr : (f.advance c offset (f.t + speed * step / rate) step).1.OnPath r) :
    r - t ≤ (1 + 1 / 2 ^ 20) * (p * s / e) + 1 / 9900 := by
  have ht0 := ht.1.nonneg
  by_contra hfar
  have hfar := not_le.mp hfar
  have hleast : leastPlace ≤ 1 / 2 ^ 100 := by norm_num [leastPlace]
  have he : 0 < e := lt_of_lt_of_le (by norm_num) hlow
  have hp0 : 0 ≤ p := Stands.nonneg hspeed
  have hs0 : 0 ≤ s := Stands.nonneg hstep
  have hshare : 0 ≤ p * s / e := by positivity
  have hone : p * s / e ≤ 1 := by linarith [hr.2]
  have hway : p * s ≤ e := (div_le_one he).mp hone
  obtain ⟨way, hmeans, hrounds⟩ := hspeed.means.mul hstep.means (by rwa [abs_of_nonneg hp0])
    (by rwa [abs_of_nonneg hs0])
  have hrounds := hrounds.rounds (mul_nonneg hp0 hs0)
  have hway0 := hrounds.nonneg
  have hwayhigh := hrounds.le_add (mul_nonneg hp0 hs0)
  have hq0 : 0 < q := by linarith
  obtain ⟨gain, hgain, hrounded⟩ := hmeans.div hrate.means (by rw [abs_of_nonneg hway0]; linarith)
    (by rwa [abs_of_pos hq0]) hq0.ne'
  have hquotient : 0 ≤ way / q := by positivity
  have hrounded := hrounded.rounds hquotient
  have hgainhigh := hrounded.le_add hquotient
  have hgain := hgain.amounts hrounded.nonneg
  have hshrunk : way / q ≤ (1 + 1 / 2 ^ 24) * (p * s / e) + 1 / 2 ^ 60 := by
    rw [div_le_iff₀ hq0]
    have hproduct : p * s = p * s / e * e := (div_mul_cancel₀ _ he.ne').symm
    have hscaled : ((1 + 1 / 2 ^ 24) * (p * s / e) + 1 / 2 ^ 60) * e ≤
        ((1 + 1 / 2 ^ 24) * (p * s / e) + 1 / 2 ^ 60) * q := by gcongr
    linarith
  obtain ⟨goal, hgoal, hsum⟩ := ht.1.add hgain
  have hgoalhigh := hsum.le_add (add_nonneg ht0 hrounded.nonneg)
  have hend := OnPath.le_goal hgoal.amounts hr
  linarith [ht.2]

end Follower

/-! ### Where a follower is led -/

theorem Single.means_zero_of_beq {x : Single} (h : (x == 0) = true) : x.Means 0 := by
  obtain ⟨r, hr⟩ := Single.exists_means_of_not_isNaN (Single.not_isNaN_of_beq h)
  rwa [(hr.beq_iff Single.amounts_zero.means).mp h] at hr

/-- The greater coordinate of a finite vector. -/
def Planar.reach (a : Planar) : ℚ := max |a.x.number| |a.y.number|

theorem Planar.reach_nonneg (a : Planar) : 0 ≤ a.reach :=
  (abs_nonneg a.x.number).trans (le_max_left _ _)

theorem Planar.means_zero_of_beq {a : Planar} (h : (a == .zero) = true) :
    a.x.Means 0 ∧ a.y.Means 0 := by
  obtain ⟨hx, hy⟩ := Bool.and_eq_true_iff.mp h
  exact ⟨Single.means_zero_of_beq hx, Single.means_zero_of_beq hy⟩

namespace Follower

variable {f : Follower} {c : Curve} {offset position : Planar} {t : Single} {b w : ℚ}

theorem localOffset_of_zero (hoffset : (offset == .zero) = true) :
    localOffset c t offset = .zero := by
  rw [localOffset, if_pos hoffset]

/-- One coordinate of a target. -/
theorem about_target {x y z : Single} (hx : x.isFinite = true) (hy : y.isFinite = true)
    (hz : z.isFinite = true) (hxw : |x.number| ≤ w) (hyb : |y.number| ≤ b) (hzb : |z.number| ≤ b)
    (hlow : 1 / 2 ^ 40 ≤ b) (hbhigh : b ≤ 2 ^ 110) (hwhigh : w ≤ 2 ^ 110) :
    ((x - (y + 0)) + z + 0).About (x.number - y.number + z.number) ((3 * w + 6 * b) / 2 ^ 24) ∧
      |x.number - y.number + z.number| ≤ w + 2 * b := by
  have hleast := leastPlace_le_of_le hlow
  have hw : 0 ≤ w := (abs_nonneg _).trans hxw
  have hnothing : (0 : Single).Means 0 := Single.amounts_zero.means
  have hgap : |x.number - y.number| ≤ w + b := (abs_sub _ _).trans (add_le_add hxw hyb)
  have hfrom := (Single.means_number hy).about.add_nothing (by linarith) hnothing
  have horigin := (Single.means_number hx).about.sub hfrom (a := w) (b := b)
    (g := (w + 2 * b) / 2 ^ 24) (by linarith) (by linarith) (by linarith) (by linarith)
  have hsum : |x.number - y.number + z.number| ≤ w + 2 * b :=
    (abs_add_le _ _).trans (by linarith)
  have hgoal := horigin.add (Single.means_number hz).about (a := 2 * w + 2 * b) (b := b)
    (g := (3 * w + 6 * b) / 2 ^ 24) (by linarith) (by linarith) (by linarith) (by linarith)
  exact ⟨hgoal.add_nothing (by linarith) hnothing, hsum⟩

/-- Without an offset, a follower is led along its path from where its entity has been found. -/
theorem near_target (hoffset : (offset == .zero) = true)
    (horigin : f.origin = (Follower.start c offset position).origin)
    (hposition : position.isFinite = true) (hw : position.reach ≤ w) (hstart : (c 0).isFinite = true)
    (hstartb : ‖(c 0).place‖ ≤ b) (hpoint : (c t).isFinite = true) (hpointb : ‖(c t).place‖ ≤ b)
    (hlow : 1 / 2 ^ 40 ≤ b) (hbhigh : b ≤ 2 ^ 110) (hwhigh : w ≤ 2 ^ 110) :
    (f.target c offset t).Near (position.place - (c 0).place + (c t).place)
      ((6 * w + 12 * b) / 2 ^ 24) := by
  obtain ⟨hpx, hpy⟩ := Bool.and_eq_true_iff.mp hposition
  obtain ⟨hsx, hsy⟩ := Bool.and_eq_true_iff.mp hstart
  obtain ⟨hcx, hcy⟩ := Bool.and_eq_true_iff.mp hpoint
  have hx := about_target hpx hsx hcx ((le_max_left _ _).trans hw) (Planar.abs_x_le hstartb)
    (Planar.abs_x_le hpointb) hlow hbhigh hwhigh
  have hy := about_target hpy hsy hcy ((le_max_right _ _).trans hw) (Planar.abs_y_le hstartb)
    (Planar.abs_y_le hpointb) hlow hbhigh hwhigh
  have hnear := Planar.near_of_parts (a := f.target c offset t) (by
    rw [target, horigin, start, localOffset_of_zero hoffset, localOffset_of_zero hoffset]
    exact hx.1) (by
    rw [target, horigin, start, localOffset_of_zero hoffset, localOffset_of_zero hoffset]
    exact hy.1) (by linarith [hx.2]) (by linarith [hy.2])
  convert hnear using 1
  · apply Complex.ext <;>
      · simp only [Planar.place, Complex.add_re, Complex.add_im, Complex.sub_re, Complex.sub_im]
        push_cast
        ring
  · push_cast
    ring

end Follower

/-! ### The velocity of a tick -/

/-- One coordinate of the velocity that makes up a difference in a step. -/
theorem Single.about_velocity {x y step scroll : Single} {s : ℚ} (hx : x.isFinite = true)
    (hy : y.isFinite = true) (hstep : step.Amounts s) (hs : s < 2 ^ 128) (hleast : leastPlace ≤ s)
    (hscroll : scroll.Means 0) (hgap : |x.number - y.number| ≤ 2 ^ 126)
    (hquick : |x.number - y.number| / s ≤ 2 ^ 126) :
    ((x - y) / step + scroll).About ((x.number - y.number) / s)
      (|x.number - y.number| / s / 2 ^ 22 + 2 * (leastPlace / s + leastPlace)) := by
  have hleastpos := leastPlace_pos
  have hpos : 0 < s := hleastpos.trans_le hleast
  have hone : leastPlace / s ≤ 1 := (div_le_one hpos).mpr hleast
  have htiny : leastPlace ≤ 1 / 2 ^ 100 := by norm_num [leastPlace]
  obtain ⟨hxmeans, hymeans⟩ := And.intro (means_number hx) (means_number hy)
  generalize x.number = p at *
  generalize y.number = q at *
  obtain ⟨d, hd⟩ : ∃ d, d = p - q := ⟨_, rfl⟩
  rw [← hd] at hgap hquick ⊢
  obtain ⟨t, ht, hrounds⟩ := hxmeans.sub hymeans (hxmeans.isFinite_iff.mp hx) (hymeans.isFinite_iff.mp hy)
  rw [← hd] at hrounds
  have herror := hrounds.error_le le_rfl (hgap.trans (by norm_num))
  have hthigh : |t| ≤ |d| + (|d| / 2 ^ 24 + leastPlace) := hrounds.abs_le_add
  have hscaled : |t / s| ≤ |d| / s + (|d| / s / 2 ^ 24 + leastPlace / s) := by
    rw [abs_div, abs_of_pos hpos, div_le_iff₀ hpos]
    have hexpand : (|d| / s + (|d| / s / 2 ^ 24 + leastPlace / s)) * s =
        |d| + (|d| / 2 ^ 24 + leastPlace) := by field_simp
    rwa [hexpand]
  have hratio : 0 ≤ |d| / s := by positivity
  have hratio' : 0 ≤ leastPlace / s := by positivity
  obtain ⟨t', ht', hrounds'⟩ := ht.div hstep.means (by linarith) (by rwa [abs_of_pos hpos]) hpos.ne'
  have herror' := hrounds'.error_le hscaled (by linarith)
  have hnear : |t' - d / s| ≤ |d| / s / 2 ^ 22 + 2 * (leastPlace / s + leastPlace) := by
    have hshift : |t / s - d / s| ≤ |d| / s / 2 ^ 24 + leastPlace / s := by
      rw [← sub_div, abs_div, abs_of_pos hpos, div_le_iff₀ hpos]
      have hexpand : (|d| / s / 2 ^ 24 + leastPlace / s) * s = |d| / 2 ^ 24 + leastPlace := by
        field_simp
      rwa [hexpand]
    have htriangle := abs_sub_le t' (t / s) (d / s)
    linarith
  have habout : ((x - y) / step).About (d / s)
      (|d| / s / 2 ^ 22 + 2 * (leastPlace / s + leastPlace)) := ⟨t', ht', hnear⟩
  refine habout.add_nothing ?_ hscroll
  rw [abs_div, abs_of_pos hpos]
  linarith

/-- The same for a part of a distance, with bounds that hold of the distance. -/
theorem Single.about_velocity_of_le {x y step scroll : Single} {s d e : ℚ} (hx : x.isFinite = true)
    (hy : y.isFinite = true) (hstep : step.Amounts s) (hs : s < 2 ^ 128) (hleast : leastPlace ≤ s)
    (hscroll : scroll.Means 0) (hfar : |x.number - y.number| ≤ 2 ^ 126)
    (hgap : |x.number - y.number| ≤ d) (hquick : d / s ≤ 2 ^ 126)
    (he : e = d / s / 2 ^ 22 + 2 * (leastPlace / s + leastPlace)) :
    ((x - y) / step + scroll).About ((x.number - y.number) / s) e ∧
      |(x.number - y.number) / s| + e ≤ 2 ^ 127 := by
  have hpos : 0 < s := leastPlace_pos.trans_le hleast
  have hone : leastPlace / s ≤ 1 := (div_le_one hpos).mpr hleast
  have htiny : leastPlace ≤ 1 / 2 ^ 100 := by norm_num [leastPlace]
  have hshare : |x.number - y.number| / s ≤ d / s := by gcongr
  have habout := about_velocity hx hy hstep hs hleast hscroll hfar (hshare.trans hquick)
  refine ⟨habout.mono ?_, ?_⟩
  · rw [he]
    gcongr
  · rw [abs_div, abs_of_pos hpos, he]
    linarith

/-- Without scrolling, the velocity that makes up a distance in a step is hardly greater than it has to be. -/
theorem Planar.velocity_le {a b scroll : Planar} {step : Single} {s d : ℚ} (ha : a.isFinite = true)
    (hb : b.isFinite = true) (hstep : step.Amounts s) (hs : s < 2 ^ 128) (hleast : leastPlace ≤ s)
    (hscroll : (scroll == .zero) = true) (hfar : ‖a.place - b.place‖ ≤ 2 ^ 126)
    (hgap : ‖a.place - b.place‖ ≤ d) (hquick : d / s ≤ 2 ^ 126) :
    ((a - b) / step + scroll).isFinite = true ∧ ‖((a - b) / step + scroll).place‖ ≤
      (d / s * (1 + 1 / 2 ^ 21) + 4 * (leastPlace / s + leastPlace) : ℚ) := by
  have hpos : 0 < s := leastPlace_pos.trans_le hleast
  obtain ⟨hax, hay⟩ := Bool.and_eq_true_iff.mp ha
  obtain ⟨hbx, hby⟩ := Bool.and_eq_true_iff.mp hb
  obtain ⟨hscrollx, hscrolly⟩ := means_zero_of_beq hscroll
  obtain ⟨e, he⟩ : ∃ e, e = d / s / 2 ^ 22 + 2 * (leastPlace / s + leastPlace) := ⟨_, rfl⟩
  have hxpart : |((a.x.number - b.x.number : ℚ) : ℝ)| ≤ ‖a.place - b.place‖ := by
    push_cast
    exact Complex.abs_re_le_norm (a.place - b.place)
  have hypart : |((a.y.number - b.y.number : ℚ) : ℝ)| ≤ ‖a.place - b.place‖ := by
    push_cast
    exact Complex.abs_im_le_norm (a.place - b.place)
  obtain ⟨hx, hxle⟩ := Single.about_velocity_of_le hax hbx hstep hs hleast hscrollx
    (by exact_mod_cast hxpart.trans hfar) (by exact_mod_cast hxpart.trans hgap) hquick he
  obtain ⟨hy, hyle⟩ := Single.about_velocity_of_le hay hby hstep hs hleast hscrolly
    (by exact_mod_cast hypart.trans hfar) (by exact_mod_cast hypart.trans hgap) hquick he
  have hnear := near_of_parts (a := (a - b) / step + scroll) hx hy hxle hyle
  refine ⟨hnear.finite, ?_⟩
  have hideal : (⟨((a.x.number - b.x.number) / s : ℚ), ((a.y.number - b.y.number) / s : ℚ)⟩ : ℂ) =
      ((s : ℝ)⁻¹) • (a.place - b.place) := by
    apply Complex.ext <;>
      · simp only [place, Complex.smul_re, Complex.smul_im, Complex.sub_re, Complex.sub_im, smul_eq_mul]
        push_cast
        ring
  have hposreal : (0 : ℝ) < s := by exact_mod_cast hpos
  have hspeed : ‖((s : ℝ)⁻¹) • (a.place - b.place)‖ ≤ d / s := by
    rw [norm_smul, norm_inv, Real.norm_of_nonneg hposreal.le, inv_mul_eq_div]
    gcongr
  have hle := hnear.le
  rw [hideal, he] at hle
  have htriangle := norm_sub_norm_le ((a - b) / step + scroll).place (((s : ℝ)⁻¹) • (a.place - b.place))
  push_cast at hle ⊢
  linarith

end Choreo
