import Choreo.Proofs.Leaf.Checks
import Choreo.Proofs.Leaf.Pacing
import Choreo.Proofs.Node.Verdicts
import Choreo.Proofs.Progress

/-!
# Keeping to the authored speed

A follower takes its parameter as far as its speed allows at the rate that the parameter has before the tick.
On an even path that rate is not far from the rates that the tick meets, and the velocity is not greater than
twice the speed. On a path whose pieces differ in length the parameter may leave a short piece at the rate
that it has had there.
-/

namespace Choreo

namespace FollowPath

variable {a : FollowPath} {f : Follower} {k : Path.Bounds} {r r' : ℚ} {position : Planar} {c : Context}

/-- Follows an even path at an ordinary speed, and not beside it. -/
structure Ordinary (a : FollowPath) (k : Path.Bounds) : Prop where
  even : a.path.Even k
  offset : (a.offset == .zero) = true
  slowest : 1 / 2 ^ 100 ≤ a.speed.number
  fastest : a.speed.number ≤ 2 ^ 100

/-- The way that the speed allows for in a tick. -/
def way (a : FollowPath) (c : Context) : ℚ := a.speed.number * c.1.step.number

/-- The shortest look ahead that matters. Where less of the parameter is left, it is no more than a tick
may take at the greatest rate. -/
def probe (a : FollowPath) (k : Path.Bounds) (c : Context) : ℚ :=
  min (99 / 100000) (a.way c / k.greatest)

/-- The least rate that a tick goes by. -/
def assumedRate (a : FollowPath) (k : Path.Bounds) (c : Context) : ℚ :=
  a.path.estimate k (a.probe k c)

/-- How far the distance of two computed targets may be off. -/
def noise (a : FollowPath) (k : Path.Bounds) (position : Planar) : ℚ :=
  2 * a.path.blur k + (12 * position.reach + 48 * k.reach) / 2 ^ 24

/-- A tick with a duration and without scrolling, that has room for what it does. The parameter goes on by
what the way takes at the assumed rate, and by a ten thousandth if that leads it to the end; covered at the
greatest rate and with the noise, this is less than twice the way. On a single straight segment that begins
at the origin, all ways down to an eight thousandth of it have room. -/
structure Strides (a : FollowPath) (k : Path.Bounds) (position : Planar) (c : Context) : Prop where
  duration : c.1.hasDuration = true
  scroll : (c.2.scroll == .zero) = true
  sure : 0 < a.assumedRate k c
  room : k.greatest * (a.way c / a.assumedRate k c + 1 / 9900) + a.noise k position ≤
    199 / 100 * a.way c

/-- A follower that has been started at a place: unless it is done, it has last been led to the point of its
path that it stands on. -/
structure Leads (a : FollowPath) (k : Path.Bounds) (position : Planar) (f : Follower) : Prop where
  origin : f.origin = (Follower.start a.path.point a.offset position).origin
  onPath : ∃ r, f.OnPath r
  last : f.isFinished = false →
    f.last.Near (position.place - (a.path.point 0).place + (a.path.point f.t).place)
      ((6 * position.reach + 24 * k.reach) / 2 ^ 24 : ℚ)

theorem leads_start (heven : a.path.Even k) (hposition : position.isFinite = true) :
    a.Leads k position (Follower.start a.path.point a.offset position) where
  origin := rfl
  onPath := ⟨0, Follower.onPath_start _ _ _⟩
  last := fun _ => by
    have hreach := heven.reach_nonneg
    have hfar := position.reach_nonneg
    refine ⟨hposition, ?_⟩
    have hsame : (Follower.start a.path.point a.offset position).last.place -
        (position.place - (a.path.point 0).place + (a.path.point 0).place) = 0 := by
      rw [sub_add_cancel]
      exact sub_self _
    exact (norm_eq_zero.mpr hsame).trans_le (by exact_mod_cast (by positivity))

/-! ### The room of a tick -/

section Room

theorem way_pos (hspeed : a.speed.isPositiveFinite = true) (hduration : c.1.hasDuration = true) :
    0 < a.way c :=
  mul_pos (Single.amounts_number hspeed).2.1 (Single.amounts_number hduration).2.1

theorem noise_le (heven : a.path.Even k) (hreach : position.reach ≤ 2 ^ 100) :
    a.noise k position ≤ 2 ^ 110 := by
  have hgrain := heven.grain_mul_le heven.reach.2
  have hgreatest := heven.greatest
  have hpath := heven.reach.2
  rw [noise, Path.blur]
  linarith

variable (hfault : a.path.fault? = none) (heven : a.path.Even k)
include hfault heven

theorem noise_nonneg (position : Planar) : 0 ≤ a.noise k position := by
  have hreach := heven.reach_nonneg
  have hfar := position.reach_nonneg
  have hblur := heven.blur_nonneg hfault
  rw [noise]
  positivity

/-- Rates within a factor of one and a half are enough, on a path that is not far from the origin for its
length, with a way that is a five hundred and twelfth of the path and a share of the distance of the place. -/
theorem Strides.of_ratio (hratio : 2 * k.greatest ≤ 3 * k.least) (hreach : k.reach ≤ 6 * k.least)
    (hduration : c.1.hasDuration = true) (hscroll : (c.2.scroll == .zero) = true)
    (hlong : k.least ≤ 512 * a.way c) (hnear : position.reach ≤ 2 ^ 16 * a.way c) :
    a.Strides k position c := by
  have hgreatest := heven.greatest_pos hfault
  have hleast := heven.least
  have hpos : 0 < k.least := by linarith
  have hway : 0 < a.way c := by linarith
  have hprobe : a.probe k c = 99 / 100000 := by
    refine min_eq_left ?_
    rw [le_div_iff₀ hgreatest]
    linarith
  have hblur : a.path.blur k ≤ 939 / 2 ^ 24 * k.least := by
    have hgrain := heven.grain_mul_le hreach
    rw [Path.blur]
    linarith
  have hrate : 87 / 100 * k.least ≤ a.assumedRate k c := by
    rw [assumedRate, Path.estimate, hprobe]
    linarith
  have hsure : 0 < a.assumedRate k c := by linarith
  have hcovered : k.greatest * (a.way c / a.assumedRate k c) ≤ 50 / 29 * a.way c :=
    calc k.greatest * (a.way c / a.assumedRate k c)
      _ ≤ 3 / 2 * k.least * (a.way c / (87 / 100 * k.least)) := by
        gcongr
        linarith
      _ = 50 / 29 * a.way c := by
        field_simp
        norm_num
  refine ⟨hduration, hscroll, hsure, ?_⟩
  rw [noise]
  linarith

variable (hspeed : a.speed.isPositiveFinite = true) (hc : a.Strides k position c)
include hspeed hc

theorem Strides.assumedRate_le : a.assumedRate k c ≤ k.least := by
  have hgreatest := heven.greatest_pos hfault
  have hway := way_pos hspeed hc.duration
  have hblur := heven.blur_nonneg hfault
  have hprobe : 0 ≤ a.probe k c := le_min (by norm_num) (by positivity)
  have hleast : 0 ≤ k.least := le_trans (by norm_num) heven.least
  have hshare : 0 ≤ 21 / 10 * a.path.blur k / a.probe k c := by positivity
  rw [assumedRate, Path.estimate]
  linarith

/-- Beside the way itself, there is room for the end and for the noise. -/
theorem Strides.slack : k.greatest / 9900 + a.noise k position ≤ 99 / 100 * a.way c := by
  have hway := way_pos hspeed hc.duration
  have hsure := hc.sure
  have hcovered : a.way c ≤ k.greatest * (a.way c / a.assumedRate k c) :=
    calc a.way c
      _ = a.assumedRate k c * (a.way c / a.assumedRate k c) := (mul_div_cancel₀ _ hsure.ne').symm
      _ ≤ k.greatest * (a.way c / a.assumedRate k c) := by
        gcongr
        exact (hc.assumedRate_le hfault heven hspeed).trans (heven.least_le hfault)
  linarith [hc.room]

theorem Strides.le_probe : 1 / 10000 ≤ a.probe k c := by
  have hslack := hc.slack hfault heven hspeed
  have hnoise := noise_nonneg hfault heven position
  have hgreatest := heven.greatest_pos hfault
  refine le_min (by norm_num) ?_
  rw [le_div_iff₀ hgreatest]
  linarith

theorem Strides.le_assumedRate : k.least / 2 ≤ a.assumedRate k c := by
  have hway := way_pos hspeed hc.duration
  have hsure := hc.sure
  have hgreatest := heven.greatest_pos hfault
  have hnoise := noise_nonneg hfault heven position
  have hcovered : k.greatest * a.way c ≤ 199 / 100 * a.assumedRate k c * a.way c :=
    calc k.greatest * a.way c
      _ = k.greatest * (a.way c / a.assumedRate k c) * a.assumedRate k c := by field_simp
      _ ≤ 199 / 100 * a.way c * a.assumedRate k c :=
        mul_le_mul_of_nonneg_right (by linarith [hc.room]) hsure.le
      _ = 199 / 100 * a.assumedRate k c * a.way c := by ring
  have hratio : k.greatest ≤ 199 / 100 * a.assumedRate k c := le_of_mul_le_mul_right hcovered hway
  linarith [heven.least_le hfault]

end Room

section Even

variable (hfault : a.path.fault? = none) (hordinary : a.Ordinary k) (h : a.Leads k position f)
  (hposition : position.isFinite = true) (hreach : position.reach ≤ 2 ^ 100)
include hfault hordinary h hposition hreach

/-- A follower is led close to where the path would be if it began at the place of the start. -/
theorem Leads.near_target {t : Single} (ht : t.InUnit r) :
    (f.target a.path.point a.offset t).Near
      (position.place - (a.path.point 0).place + (a.path.point t).place)
      ((6 * position.reach + 24 * k.reach) / 2 ^ 24 : ℚ) := by
  obtain ⟨hlow, hhigh⟩ := hordinary.even.reach
  have hpoint : ∀ {t : Single} {q : ℚ}, t.InUnit q →
      (a.path.point t).isFinite = true ∧ ‖(a.path.point t).place‖ ≤ (2 * k.reach : ℚ) := fun ht =>
    ⟨(Path.near_ideal hfault hordinary.even ht).finite, hordinary.even.norm_point_le hfault ht⟩
  obtain ⟨hstart, hstartb⟩ := hpoint Single.inUnit_zero
  obtain ⟨hnext, hnextb⟩ := hpoint ht
  have htarget := Follower.near_target hordinary.offset h.origin hposition le_rfl hstart hstartb hnext
    hnextb (by linarith) (by linarith) (hreach.trans (by norm_num))
  refine ⟨htarget.finite, htarget.le.trans_eq ?_⟩
  push_cast
  ring

/-- Where a follower is led next is not much further away than the path goes on in between. -/
theorem Leads.gap_le {t : Single} (hrunning : f.isFinished = false) (hon : f.OnPath r)
    (ht : t.InUnit r') (hle : r ≤ r') :
    ‖(f.target a.path.point a.offset t).place - f.last.place‖ ≤
      (k.greatest * (r' - r) + a.noise k position : ℚ) := by
  have htarget := (h.near_target hfault hordinary hposition hreach ht).le
  have hbehind := (h.last hrunning).le
  have hpoints := hordinary.even.norm_sub_le hfault ⟨hon.1.amounts, hon.2⟩ ht hle
  have htriangle := norm_sub_le_norm_sub_add_norm_sub (f.target a.path.point a.offset t).place
    (position.place - (a.path.point 0).place + (a.path.point t).place) f.last.place
  have htriangle' := norm_sub_le_norm_sub_add_norm_sub
    (position.place - (a.path.point 0).place + (a.path.point t).place)
    (position.place - (a.path.point 0).place + (a.path.point f.t).place) f.last.place
  rw [norm_sub_rev] at hbehind
  rw [add_sub_add_left_eq_sub] at htriangle'
  rw [noise]
  push_cast at hpoints htarget hbehind ⊢
  linarith

end Even

/-- What covers in a tick hardly less than twice what the speed allows is not twice as fast as the speed. -/
theorem Strides.velocity_le (hfault : a.path.fault? = none) (hordinary : a.Ordinary k)
    (hspeed : a.speed.isPositiveFinite = true) (hc : a.Strides k position c) {there here : Planar}
    (hthere : there.isFinite = true) (hhere : here.isFinite = true)
    (hfar : ‖there.place - here.place‖ ≤ 2 ^ 126)
    (hgap : ‖there.place - here.place‖ ≤ (1999 / 1000 * a.way c : ℚ)) :
    ((there - here) / c.1.step + c.2.scroll).isFinite = true ∧
      ‖((there - here) / c.1.step + c.2.scroll).place‖ ≤ 2 * a.speed.number := by
  obtain ⟨_, hppos, _⟩ := Single.amounts_number hspeed
  obtain ⟨hs, hspos, hslt⟩ := Single.amounts_number hc.duration
  have hslow := hordinary.slowest
  have hfast := hordinary.fastest
  have hway : 1 / 2 ^ 44 ≤ a.way c := by
    have hslack := hc.slack hfault hordinary.even hspeed
    have hnoise := noise_nonneg hfault hordinary.even position
    linarith [hordinary.even.least, hordinary.even.least_le hfault]
  have hleast : leastPlace ≤ 1 / 2 ^ 149 := by norm_num [leastPlace]
  rw [way] at hway hgap
  have hpace : 1999 / 1000 * (a.speed.number * c.1.step.number) / c.1.step.number =
      1999 / 1000 * a.speed.number := by field_simp
  -- The way of a tick is so much longer than the least amount that the step is no shorter than it.
  have hstep : leastPlace / c.1.step.number ≤ a.speed.number / 2 ^ 100 := by
    rw [div_le_iff₀ hspos]
    linarith
  have hroom : leastPlace ≤ c.1.step.number := by
    have hscaled : a.speed.number * c.1.step.number ≤ 2 ^ 100 * c.1.step.number := by gcongr
    linarith
  obtain ⟨hfinite, hvelocity⟩ := Planar.velocity_le hthere hhere hs hslt hroom hc.scroll hfar hgap (by
    rw [hpace]
    linarith)
  refine ⟨hfinite, hvelocity.trans ?_⟩
  rw [hpace]
  have hbound : 1999 / 1000 * a.speed.number * (1 + 1 / 2 ^ 21) +
      4 * (leastPlace / c.1.step.number + leastPlace) ≤ 2 * a.speed.number := by linarith
  exact_mod_cast hbound

section Tick

variable {rate : Single} (hfault : a.path.fault? = none) (hordinary : a.Ordinary k)
  (hspeed : a.speed.isPositiveFinite = true) (hc : a.Strides k position c) (hon : f.OnPath r)
  (heq : rate = Curve.speed a.path.point f.t Curve.defaultStep) (hrate : ¬rate ≤ leastSpeed)
include hfault hordinary hspeed hc hon heq hrate

/-- Between two ticks the parameter does not lead much further than the speed allows. -/
theorem Strides.stretch_le
    (hon' : (f.advance a.path.point a.offset (f.t + a.speed * c.1.step / rate) c.1.step).1.OnPath r') :
    k.greatest * (r' - r) + a.noise k position ≤ 1999 / 1000 * a.way c := by
  have heven := hordinary.even
  have hgreatest := heven.greatest_pos hfault
  have hway := way_pos hspeed hc.duration
  have hslack := hc.slack hfault heven hspeed
  have hnoise := noise_nonneg hfault heven position
  rcases le_or_gt (r + a.probe k c) 1 with hbefore | hend
  · obtain ⟨hp, _, hplt⟩ := Single.amounts_number hspeed
    obtain ⟨hs, _, hslt⟩ := Single.amounts_number hc.duration
    have hhalf := hc.le_assumedRate hfault heven hspeed
    obtain ⟨q, hq, hle, hqlt⟩ := heven.exists_rate hfault ⟨hon.1.amounts, hon.2⟩
      (hc.le_probe hfault heven hspeed) (min_le_left _ _) hbefore hhalf (heq ▸ hrate)
    have hlow : 1 / 2 ^ 31 ≤ a.assumedRate k c := by linarith [heven.least]
    have hhigh : a.assumedRate k c ≤ 2 ^ 101 := (hc.assumedRate_le hfault heven hspeed).trans
      ((heven.least_le hfault).trans heven.greatest)
    have hgain := hon.sub_le hp hplt hs hslt (heq ▸ hq) hle hqlt hlow hhigh hon'
    have hcovered : k.greatest * (r' - r) ≤
        k.greatest * ((1 + 1 / 2 ^ 20) * (a.way c / a.assumedRate k c) + 1 / 9900) := by
      gcongr
      exact hgain
    linarith [hc.room]
  -- Near the end, what is left of the path is no more than the way.
  · have hleft : k.greatest * (r' - r) ≤ a.way c :=
      calc k.greatest * (r' - r)
        _ ≤ k.greatest * (a.way c / k.greatest) := by
          gcongr
          have hprobe : a.probe k c ≤ a.way c / k.greatest := min_le_right _ _
          linarith [hon'.2]
        _ = a.way c := mul_div_cancel₀ _ hgreatest.ne'
    linarith

/-- An advance leads on along the path, with a velocity that is not greater than twice the speed. -/
theorem Leads.advance (h : a.Leads k position f) (hposition : position.isFinite = true)
    (hreach : position.reach ≤ 2 ^ 100) (hrunning : f.isFinished = false) :
    let ahead := f.advance a.path.point a.offset (f.t + a.speed * c.1.step / rate) c.1.step
    a.Leads k position ahead.1 ∧ (ahead.2 + c.2.scroll).isFinite = true ∧
      ‖(ahead.2 + c.2.scroll).place‖ ≤ 2 * a.speed.number := by
  intro ahead
  obtain ⟨q, hq, _⟩ := exists_speed a.path.point f.t Curve.defaultStep
  have hgain := unsigned_gain hspeed hc.duration ⟨q, heq ▸ hq⟩ hrate
  obtain ⟨r', hon', hle⟩ := Follower.exists_onPath_advance hon hgain a.path.point a.offset c.1.step
  have hstretch := hc.stretch_le hfault hordinary hspeed hon heq hrate hon'
  have hthere : ahead.1.t.InUnit r' := ⟨hon'.1.amounts, hon'.2⟩
  have htarget := h.near_target hfault hordinary hposition hreach hthere
  have hgap := h.gap_le hfault hordinary hposition hreach hrunning hon hthere hle
  refine ⟨⟨h.origin, ⟨r', hon'⟩, fun _ => htarget⟩, ?_⟩
  have hfar : k.greatest * (r' - r) + a.noise k position ≤ 2 ^ 126 := by
    have hgreatest := hordinary.even.greatest_pos hfault
    have hwhole : k.greatest * (r' - r) ≤ k.greatest * 1 := by
      gcongr
      linarith [hon'.2, hon.1.nonneg]
    have hnoise := noise_le hordinary.even hreach
    linarith [hordinary.even.greatest]
  exact hc.velocity_le hfault hordinary hspeed htarget.finite (h.last hrunning).finite
    (hgap.trans (by exact_mod_cast hfar)) (hgap.trans (by exact_mod_cast hstretch))

end Tick

/-- An update keeps a follower on its course, and writes one velocity. -/
theorem Leads.update (hfault : a.path.fault? = none) (hordinary : a.Ordinary k)
    (hspeed : a.speed.isPositiveFinite = true) (hposition : position.isFinite = true)
    (hreach : position.reach ≤ 2 ^ 100) (hc : a.Strides k position c) (h : a.Leads k position f) :
    ∃ g x, ({ a with follower := f } : FollowPath).update c.1 c.2 =
        ({ a with follower := g }, [.velocity x]) ∧
      a.Leads k position g ∧ x.isFinite = true ∧ ‖x.place‖ ≤ 2 * a.speed.number := by
  have hzero : Planar.zero.isFinite = true ∧ ‖Planar.zero.place‖ ≤ 2 * (a.speed.number : ℝ) := by
    obtain ⟨_, hpos, _⟩ := Single.amounts_number hspeed
    have hnone : (0 : Single).number = 0 := Single.amounts_zero.means.number_eq (by norm_num)
    have hplace : Planar.zero.place = 0 := by
      apply Complex.ext <;> simp [Planar.place, Planar.zero, hnone]
    rw [hplace, norm_zero]
    exact ⟨by decide +kernel, by positivity⟩
  have hended : a.Leads k position f.snapToEnd := by
    have hfinished : f.snapToEnd.isFinished = true := by
      change decide ((1 : Single) ≤ 1) = true
      decide +kernel
    refine ⟨h.origin, ⟨1, f.onPath_snapToEnd⟩, fun hrunning => ?_⟩
    rw [hfinished] at hrunning
    cases hrunning
  rw [FollowPath.update]
  split
  · exact ⟨f, .zero, rfl, h, hzero⟩
  next hrunning =>
  rw [if_neg (by rw [hc.duration]; decide)]
  simp only
  split
  · exact ⟨f.snapToEnd, .zero, rfl, hended, hzero⟩
  next hrate =>
  obtain ⟨r, hon⟩ := h.onPath
  obtain ⟨hahead, hvelocity⟩ := h.advance hfault hordinary hspeed hc hon rfl hrate hposition hreach
    (Bool.eq_false_iff.mpr hrunning)
  exact ⟨_, _, rfl, hahead, hvelocity⟩

/-- A run of updates keeps a follower on its course. -/
theorem Leads.exists_played (hfault : a.path.fault? = none) (hordinary : a.Ordinary k)
    (hspeed : a.speed.isPositiveFinite = true) (hposition : position.isFinite = true)
    (hreach : position.reach ≤ 2 ^ 100) {h : Header} (hlive : h.live = true) {run : List Context}
    (hrun : ∀ c ∈ run, a.Strides k position c) (hleads : a.Leads k position f) :
    ∃ g, (Node.leaf h (.followPath { a with follower := f })).played run =
        .leaf h (.followPath { a with follower := g }) ∧
      a.Leads k position g := by
  induction run generalizing f with
  | nil => exact ⟨f, rfl, hleads⟩
  | cons c later ih =>
      obtain ⟨hc, hlater⟩ := List.forall_mem_cons.mp hrun
      obtain ⟨g, x, hupdate, hahead, _⟩ := hleads.update hfault hordinary hspeed hposition hreach hc
      obtain ⟨k, hplayed, hend⟩ := ih hlater hahead
      refine ⟨k, ?_, hend⟩
      rw [← hplayed, Node.played, List.foldl_cons, Node.update_leaf, if_pos hlive, Leaf.update, hupdate]
      rfl

end FollowPath

/-- **A follower keeps to its speed on an even path.** As long as every tick has room for what it does, each
update of an accepted follower without an offset writes one velocity, which is not greater than twice the
authored speed. -/
theorem path_speed_kept {h : Header} {a : FollowPath} {w w' : Surroundings} {id : ℕ} {k : Path.Bounds}
    (hlive : (((Node.leaf h (.followPath a)).init w id).1.start w').1.header.live = true)
    (hordinary : a.Ordinary k) (hposition : w'.position.isFinite = true)
    (hreach : w'.position.reach ≤ 2 ^ 100) (earlier : List Context) (c : Context)
    (hstrides : ∀ d ∈ earlier ++ [c], a.Strides k w'.position d) :
    let started := (((Node.leaf h (.followPath a)).init w id).1.start w').1
    ∃ x, ((started.played earlier).update c.1 c.2).2 = [.write (.velocity x)] ∧ x.isFinite = true ∧
      ‖x.place‖ ≤ 2 * a.speed.number := by
  intro started
  have haccepted : ((Node.leaf h (.followPath a)).init w id).1.header.fault = none := by
    rw [Node.start_header] at hlive
    exact Option.isNone_iff_eq_none.mp (Bool.and_eq_true_iff.mp hlive).2
  obtain ⟨b, hinit, hnode⟩ := Node.init_leaf_of_fault haccepted
  obtain ⟨b, hpath, rfl⟩ := Fault.ok_of_map hinit
  obtain ⟨_, hspeed, hfault, rfl⟩ := FollowPath.ok_of_init hpath
  rw [hnode, Node.start_header] at hlive
  have hlive : (h.initialised id none).opened.live = true := hlive
  have hstarted : started = .leaf (h.initialised id none).opened (.followPath (b.start w')) := by
    simp only [started]
    rw [hnode, Node.start_leaf w' _ hlive]
    rfl
  obtain ⟨hearlier, hc⟩ := List.forall_mem_append.mp hstrides
  obtain ⟨f, hplayed, hleads⟩ := (FollowPath.leads_start hordinary.even hposition).exists_played hfault
    hordinary hspeed hposition hreach hlive hearlier
  obtain ⟨g, x, hupdate, _, hvelocity⟩ := hleads.update hfault hordinary hspeed hposition hreach
    (hc c (List.mem_singleton_self c))
  refine ⟨x, ?_, hvelocity⟩
  rw [hstarted, FollowPath.start, hplayed, Node.update_leaf, if_pos hlive, Leaf.update, hupdate]
  rfl

/-- Two legs of the same length, at a right angle. -/
def corner : FollowPath :=
  { path := .polyline ⟨[⟨0, 0⟩, ⟨3, 0⟩, ⟨3, 3⟩]⟩
    speed := 1 }

theorem place_corner : (⟨0, 0⟩ : Planar).place = 0 ∧ (⟨3, 0⟩ : Planar).place = ⟨3, 0⟩ ∧
    (⟨3, 3⟩ : Planar).place = ⟨3, 3⟩ := by
  have hnone : (0 : Single).number = 0 := Single.amounts_zero.means.number_eq (by norm_num)
  have hthree : (3 : Single).number = 3 := by
    have hcount : Single.ofCount 3 = 3 := by decide +kernel
    exact_mod_cast hcount ▸ Single.number_ofCount (n := 3) (by norm_num) (by norm_num)
  refine ⟨?_, ?_, ?_⟩ <;> apply Complex.ext <;> simp [Planar.place, hnone, hthree]

/-- At a right angle, the bisector leads ahead on both legs. -/
theorem even_corner : corner.path.Even ⟨4, 6, 6⟩ := by
  obtain ⟨hbegin, hbend, hend⟩ := place_corner
  have hrates : ∀ j < 2, ∀ z ∈ corner.path.rates j, z = ⟨6, 0⟩ ∨ z = ⟨0, 6⟩ := by
    intro j hj z hz
    obtain rfl : z = _ := hz
    interval_cases j
    · left
      apply Complex.ext <;> norm_num [corner, Path.pieces, hbegin, hbend]
    · right
      apply Complex.ext <;> norm_num [corner, Path.pieces, hbend, hend]
  constructor
  case steady =>
    refine ⟨fun j hj z hz => ?_, fun _ _ => ⟨⟨2 / 3, 2 / 3⟩, ?_, fun j hj _ _ z hz => ?_⟩⟩
    · rcases hrates j hj z hz with rfl | rfl <;>
        exact (Complex.norm_le_abs_re_add_abs_im _).trans (by norm_num)
    · rw [← sq_le_one_iff₀ (norm_nonneg _), Complex.sq_norm, Complex.normSq_mk]
      norm_num
    · rcases hrates j hj z hz with rfl | rfl <;> norm_num [Path.along]
  case joined =>
    intro j hj
    obtain rfl : j = 0 := by
      have hj : j + 1 < 2 := hj
      omega
    simp [Path.arc, corner]
  case near =>
    intro a ha
    have ha : a ∈ [(⟨0, 0⟩ : Planar), ⟨3, 0⟩, ⟨3, 3⟩] := ha
    simp only [List.mem_cons, List.not_mem_nil, or_false] at ha
    refine (Complex.norm_le_abs_re_add_abs_im _).trans ?_
    rcases ha with rfl | rfl | rfl
    · norm_num [hbegin]
    · norm_num [hbend]
    · norm_num [hend]
  case pieces =>
    change 2 ≤ 2 ^ 24
    norm_num
  all_goals norm_num

/-- Round a corner, in steps of a second. -/
theorem path_speed_kept_corner :
    let started := (((Node.leaf {} (.followPath corner)).init {} 0).1.start {}).1
    let second : Context := (⟨0, 1⟩, {})
    started.header.live = true ∧
      ∃ x, ((started.played [second, second, second]).update second.1 second.2).2 =
          [.write (.velocity x)] ∧
        x.isFinite = true ∧ ‖x.place‖ ≤ 2 * corner.speed.number := by
  intro started second
  have hlive : started.header.live = true := by decide +kernel
  have hone : corner.speed.number = 1 := Single.amounts_one.means.number_eq (by norm_num)
  have hstep : (1 : Single).number = 1 := hone
  have hreach : Planar.zero.reach = 0 := by
    have hnone : (0 : Single).number = 0 := Single.amounts_zero.means.number_eq (by norm_num)
    simp [Planar.reach, Planar.zero, hnone]
  have hordinary : corner.Ordinary ⟨4, 6, 6⟩ :=
    ⟨even_corner, by decide +kernel, by rw [hone]; norm_num, by rw [hone]; norm_num⟩
  have hway : corner.way second = 1 := by rw [FollowPath.way, hone, hstep, one_mul]
  have hstrides : corner.Strides ⟨4, 6, 6⟩ Planar.zero second :=
    .of_ratio (by decide +kernel) even_corner (by norm_num) (by norm_num) (by decide +kernel)
      (by decide +kernel) (by norm_num [hway]) (by norm_num [hway, hreach])
  refine ⟨hlive, path_speed_kept hlive hordinary (by decide +kernel) (hreach.trans_le (by norm_num))
    [second, second, second] second fun d hd => ?_⟩
  obtain rfl : d = second := by simpa using hd
  exact hstrides

/-- A short leg and a long one. -/
def uneven : FollowPath :=
  { path := .polyline ⟨[⟨0, 0⟩, ⟨0.25, 0⟩, ⟨64.25, 0⟩]⟩
    speed := 1 }

/-- A tick may leave a short piece at the rate that the parameter has there, and then covers half of the long
one. -/
theorem path_speed_exceeded :
    let started := (((Node.leaf {} (.followPath uneven)).init {} 0).1.start {}).1
    let tick : Context := (⟨0, 0.375⟩, {})
    started.header.live = true ∧ (uneven.offset == .zero) = true ∧ tick.1.hasDuration = true ∧
      (tick.2.scroll == .zero) = true ∧
      ∃ x, (started.update tick.1 tick.2).2 = [.write (.velocity x)] ∧
        ¬‖x.place‖ ≤ 2 * uneven.speed.number := by
  intro started tick
  refine ⟨by decide +kernel, by decide +kernel, by decide +kernel, by decide +kernel, ⟨86, 0⟩,
    by decide +kernel, fun hle => ?_⟩
  have hone : uneven.speed.number = 1 := Single.amounts_one.means.number_eq (by norm_num)
  have hquick : (86 : Single).number = 86 := by
    have hcount : Single.ofCount 86 = 86 := by decide +kernel
    exact_mod_cast hcount ▸ Single.number_ofCount (n := 86) (by norm_num) (by norm_num)
  have hpart := (Complex.abs_re_le_norm (⟨86, 0⟩ : Planar).place).trans hle
  simp only [Planar.place, hquick, hone] at hpart
  norm_num at hpart

end Choreo
