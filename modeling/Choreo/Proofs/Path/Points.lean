import Choreo.Proofs.Path.Ideal

/-!
# Computed points

The points that the interpreter computes of a path are not far from the ideal path, compared to how far the
control points are from the origin.
-/

namespace Choreo

/-! ### Vectors near a place -/

namespace Planar

/-- The vector is finite, and stands at most `e` away from a place. -/
structure Near (a : Planar) (z : ℂ) (e : ℝ) : Prop where
  finite : a.isFinite = true
  le : ‖a.place - z‖ ≤ e

variable {a : Planar} {z : ℂ} {r s e : ℚ}

theorem near_of_parts (hx : a.x.About r e) (hy : a.y.About s e) (hr : |r| + e ≤ 2 ^ 127)
    (hs : |s| + e ≤ 2 ^ 127) : a.Near ⟨r, s⟩ (2 * e) := by
  have hpart : ∀ {v w : ℚ}, |v - w| ≤ e → |(v : ℝ) - w| ≤ e := fun h => by exact_mod_cast h
  refine ⟨Bool.and_eq_true_iff.mpr ⟨hx.isFinite hr, hy.isFinite hs⟩, ?_⟩
  calc ‖a.place - ⟨r, s⟩‖
    _ ≤ |(a.place - ⟨r, s⟩).re| + |(a.place - ⟨r, s⟩).im| := Complex.norm_le_abs_re_add_abs_im _
    _ ≤ e + e := add_le_add (hpart (hx.number_sub_le hr)) (hpart (hy.number_sub_le hs))
    _ = 2 * e := by ring

theorem abs_x_le {b : ℚ} (h : ‖a.place‖ ≤ b) : |a.x.number| ≤ b := by
  have hpart : |(a.x.number : ℝ)| ≤ b := (Complex.abs_re_le_norm a.place).trans h
  exact_mod_cast hpart

theorem abs_y_le {b : ℚ} (h : ‖a.place‖ ≤ b) : |a.y.number| ≤ b := by
  have hpart : |(a.y.number : ℝ)| ≤ b := (Complex.abs_im_le_norm a.place).trans h
  exact_mod_cast hpart

end Planar

/-! ### Segments -/

section Errors

variable {x y t : Single} {s b : ℚ}

/-- Next to a number of some size, the least amount counts for nothing. -/
theorem leastPlace_le_of_le (h : 1 / 2 ^ 40 ≤ b) : leastPlace ≤ b / 2 ^ 60 := by
  have hleast : leastPlace ≤ 1 / 2 ^ 140 := by norm_num [leastPlace]
  linarith

theorem Single.about_lerp (hx : x.isFinite = true) (hy : y.isFinite = true) (hxb : |x.number| ≤ b)
    (hyb : |y.number| ≤ b) (ht : t.InUnit s) (hlow : 1 / 2 ^ 40 ≤ b) (hhigh : b ≤ 2 ^ 110) :
    (x + (y - x) * t).About (x.number + (y.number - x.number) * s) (10 * b / 2 ^ 24) ∧
      |x.number + (y.number - x.number) * s| ≤ 3 * b := by
  have hleast := leastPlace_le_of_le hlow
  have hs : |s| + 0 ≤ 1 := by
    rw [abs_of_nonneg (Stands.nonneg ht.1)]
    linarith [ht.2]
  have hgap : |y.number - x.number| ≤ 2 * b := (abs_sub _ _).trans (by linarith)
  have hstep := (means_number hy).about.sub (means_number hx).about (a := b) (b := b)
    (g := 3 * b / 2 ^ 24) (by linarith) (by linarith) (by linarith) (by linarith)
  have hscaled := hstep.mul ht.1.means.about (a := 5 / 2 * b) (b := 1) (g := 6 * b / 2 ^ 24)
    (by linarith) hs (by linarith) (by norm_num) (by linarith) (by linarith)
  have hshare : |(y.number - x.number) * s| ≤ 2 * b := by
    rw [abs_mul]
    have hs : |s| ≤ 1 := by linarith
    exact (mul_le_of_le_one_right (abs_nonneg _) hs).trans hgap
  refine ⟨(means_number hx).about.add hscaled (a := b) (b := 5 / 2 * b) (by linarith) (by linarith)
    (by linarith) (by linarith), (abs_add_le _ _).trans (by linarith)⟩

theorem Planar.near_lerp {a c : Planar} (ha : a.isFinite = true) (hc : c.isFinite = true)
    (hab : ‖a.place‖ ≤ b) (hcb : ‖c.place‖ ≤ b) (ht : t.InUnit s) (hlow : 1 / 2 ^ 40 ≤ b)
    (hhigh : b ≤ 2 ^ 110) :
    (a.lerp c t).Near (a.place + (s : ℝ) • (c.place - a.place)) (20 * b / 2 ^ 24) := by
  obtain ⟨hax, hay⟩ := Bool.and_eq_true_iff.mp ha
  obtain ⟨hcx, hcy⟩ := Bool.and_eq_true_iff.mp hc
  have hx := Single.about_lerp hax hcx (abs_x_le hab) (abs_x_le hcb) ht hlow hhigh
  have hy := Single.about_lerp hay hcy (abs_y_le hab) (abs_y_le hcb) ht hlow hhigh
  have hpoint := near_of_parts (a := a.lerp c t) hx.1 hy.1 (by linarith [hx.2]) (by linarith [hy.2])
  convert hpoint using 1
  · apply Complex.ext <;>
      · simp only [place, Complex.add_re, Complex.add_im, Complex.sub_re, Complex.sub_im, Complex.smul_re,
          Complex.smul_im, smul_eq_mul]
        push_cast
        ring
  · push_cast
    ring

end Errors

/-! ### Cubics -/

namespace Cubic

variable {t : Single} {s b : ℚ}

/-- A weight, with the error in last places of a unit, times a number in the unit. -/
theorem about_weigh {x y : Single} {p q : ℚ} {i j k : ℕ} (hx : x.About p (i / 2 ^ 24))
    (hy : y.About q (j / 2 ^ 24)) (hp : 0 ≤ p ∧ p ≤ k) (hq : 0 ≤ q ∧ q ≤ 1) (hi : i ≤ 64) (hj : j ≤ 1)
    (hk : k ≤ 4) : (x * y).About (p * q) ((i + k * j + k + 1 : ℕ) / 2 ^ 24) := by
  have hleast : leastPlace ≤ 1 / 2 ^ 100 := by norm_num [leastPlace]
  have hi' : (i : ℚ) ≤ 64 := by exact_mod_cast hi
  have hj' : (j : ℚ) ≤ 1 := by exact_mod_cast hj
  have hk' : (k : ℚ) ≤ 4 := by exact_mod_cast hk
  refine hx.mul hy (a := k + 64 / 2 ^ 24) (b := 1 + 1 / 2 ^ 24) ?_ ?_ ?_ ?_ ?_ ?_
  · rw [abs_of_nonneg hp.1]
    linarith [hp.2]
  · rw [abs_of_nonneg hq.1]
    linarith [hq.2]
  · linarith
  · norm_num
  · linarith
  · push_cast
    linarith

/-- The weights that the interpreter gives to the control points. -/
structure Weighs (t : Single) (s : ℚ) : Prop where
  start : ((1 - t) * (1 - t) * (1 - t) : Single).About ((1 - s) * (1 - s) * (1 - s)) (7 / 2 ^ 24)
  startHandle : (3 * (1 - t) * (1 - t) * t : Single).About (3 * (1 - s) * (1 - s) * s) (18 / 2 ^ 24)
  endHandle : (3 * (1 - t) * t * t : Single).About (3 * (1 - s) * s * s) (15 / 2 ^ 24)
  finish : (t * t * t : Single).About (s * s * s) (4 / 2 ^ 24)

theorem weighs (ht : t.InUnit s) : Weighs t s := by
  obtain ⟨w, hw, hrounds⟩ := ht.one_sub
  have hs : 0 ≤ s ∧ s ≤ 1 := ⟨Stands.nonneg ht.1, ht.2⟩
  have hp : 0 ≤ 1 - s ∧ 1 - s ≤ 1 := by constructor <;> linarith
  have hunit : ∀ {q q' : ℚ} {k : ℕ}, 0 ≤ q ∧ q ≤ k → 0 ≤ q' ∧ q' ≤ 1 → 0 ≤ q * q' ∧ q * q' ≤ k :=
    fun hq hq' => ⟨mul_nonneg hq.1 hq'.1,
      (mul_le_of_le_one_right hq.1 hq'.2).trans hq.2⟩
  have hthree : (3 : Single).About 3 ((0 : ℕ) / 2 ^ 24) := by
    have hof : Single.ofCount 3 = 3 := by decide +kernel
    have hamounts := Single.amounts_ofCount_of_le (k := 3) (by norm_num) (by norm_num)
    rw [hof] at hamounts
    simpa using hamounts.means.about
  have ht' : t.About s ((0 : ℕ) / 2 ^ 24) := by simpa using ht.1.means.about
  have hu : (1 - t : Single).About (1 - s) ((1 : ℕ) / 2 ^ 24) := by
    refine ⟨w, hw.1.means, (hrounds.error_le hp.1 (hw.2.trans_lt (by norm_num))).trans
      (max_le ?_ ?_)⟩
    · push_cast
      linarith [hp.2]
    · norm_num [leastPlace]
  have hp1 : 0 ≤ 1 - s ∧ 1 - s ≤ ((1 : ℕ) : ℚ) := by simpa using hp
  have hs1 : 0 ≤ s ∧ s ≤ ((1 : ℕ) : ℚ) := by simpa using hs
  have hthree' : 0 ≤ (3 : ℚ) ∧ (3 : ℚ) ≤ (3 : ℕ) := by norm_num
  have hlevers := about_weigh hthree hu hthree' hp (by norm_num) le_rfl (by norm_num)
  constructor
  · have hsquare := about_weigh hu hu hp1 hp (by norm_num) le_rfl (by norm_num)
    have hcube := about_weigh hsquare hu (hunit hp1 hp) hp (by norm_num) le_rfl (by norm_num)
    exact hcube.mono (by norm_num)
  · have hsquare := about_weigh hlevers hu (hunit hthree' hp) hp (by norm_num) le_rfl (by norm_num)
    have hcube := about_weigh hsquare ht' (hunit (hunit hthree' hp) hp) hs (by norm_num)
      (by norm_num) (by norm_num)
    exact hcube.mono (by norm_num)
  · have hsquare := about_weigh hlevers ht' (hunit hthree' hp) hs (by norm_num) (by norm_num)
      (by norm_num)
    have hcube := about_weigh hsquare ht' (hunit (hunit hthree' hp) hs) hs (by norm_num)
      (by norm_num) (by norm_num)
    exact hcube.mono (by norm_num)
  · have hsquare := about_weigh ht' ht' hs1 hs (by norm_num) (by norm_num) (by norm_num)
    have hcube := about_weigh hsquare ht' (hunit hs1 hs) hs (by norm_num) (by norm_num) (by norm_num)
    exact hcube.mono (by norm_num)

/-- A control coordinate under its weight. -/
theorem about_part {x w : Single} {q : ℚ} {i k : ℕ} (hx : x.isFinite = true) (hxb : |x.number| ≤ b)
    (hw : w.About q (i / 2 ^ 24)) (hq : 0 ≤ q ∧ q ≤ k) (hi : i ≤ 64) (hk : k ≤ 4)
    (hlow : 1 / 2 ^ 40 ≤ b) (hhigh : b ≤ 2 ^ 110) :
    (x * w).About (x.number * q) ((i + k + 1 : ℕ) * b / 2 ^ 24) ∧ |x.number * q| ≤ k * b := by
  have hleast := leastPlace_le_of_le hlow
  have hi' : (i : ℚ) ≤ 64 := by exact_mod_cast hi
  have hk' : (k : ℚ) ≤ 4 := by exact_mod_cast hk
  have hb : 0 ≤ b := le_trans (by norm_num) hlow
  have hkb : (k : ℚ) * b ≤ 4 * b := by gcongr
  refine ⟨(Single.means_number hx).about.mul hw (a := b) (b := k + 64 / 2 ^ 24) ?_ ?_ ?_ ?_ ?_ ?_, ?_⟩
  · linarith
  · rw [abs_of_nonneg hq.1]
    linarith [hq.2]
  · linarith
  · linarith
  · linarith
  · push_cast
    linarith
  · rw [abs_mul, abs_of_nonneg hq.1, mul_comm]
    exact mul_le_mul hq.2 hxb (abs_nonneg _) (hq.1.trans hq.2)

theorem about_sum {x y : Single} {r q : ℚ} {i j k l : ℕ} (hx : x.About r (i * b / 2 ^ 24))
    (hy : y.About q (j * b / 2 ^ 24)) (hr : |r| ≤ k * b) (hq : |q| ≤ l * b) (hij : i + j ≤ 128)
    (hkl : k + l ≤ 8) (hlow : 1 / 2 ^ 40 ≤ b) (hhigh : b ≤ 2 ^ 110) :
    (x + y).About (r + q) ((i + j + k + l + 1 : ℕ) * b / 2 ^ 24) ∧ |r + q| ≤ (k + l : ℕ) * b := by
  have hleast := leastPlace_le_of_le hlow
  have hb : 0 ≤ b := le_trans (by norm_num) hlow
  have hij' : ((i : ℚ) + j) * b ≤ 128 * b := by
    gcongr
    exact_mod_cast hij
  have hkl' : ((k : ℚ) + l) * b ≤ 8 * b := by
    gcongr
    exact_mod_cast hkl
  refine ⟨hx.add hy (a := k * b + i * b / 2 ^ 24) (b := l * b + j * b / 2 ^ 24) ?_ ?_ ?_ ?_, ?_⟩
  · linarith
  · linarith
  · linarith
  · push_cast
    linarith
  · push_cast
    have htriangle := abs_add_le r q
    linarith

/-- One coordinate of the point of a cubic. -/
theorem about_blend {c : Cubic} (part : Planar → Single) (hfinite : ∀ a ∈ c.controls, (part a).isFinite = true)
    (hbound : ∀ a ∈ c.controls, |(part a).number| ≤ b) (ht : t.InUnit s) (hlow : 1 / 2 ^ 40 ≤ b)
    (hhigh : b ≤ 2 ^ 110) :
    (part c.start * ((1 - t) * (1 - t) * (1 - t)) + part c.startHandle * (3 * (1 - t) * (1 - t) * t) +
        part c.endHandle * (3 * (1 - t) * t * t) + part c.finish * (t * t * t)).About
      ((part c.start).number * ((1 - s) * (1 - s) * (1 - s)) +
        (part c.startHandle).number * (3 * (1 - s) * (1 - s) * s) +
        (part c.endHandle).number * (3 * (1 - s) * s * s) + (part c.finish).number * (s * s * s))
      (78 * b / 2 ^ 24) ∧
    |(part c.start).number * ((1 - s) * (1 - s) * (1 - s)) +
        (part c.startHandle).number * (3 * (1 - s) * (1 - s) * s) +
        (part c.endHandle).number * (3 * (1 - s) * s * s) + (part c.finish).number * (s * s * s)| ≤
      8 * b := by
  obtain ⟨hstart, hfirst, hsecond, hlast⟩ := weighs ht
  have hs : 0 ≤ s ∧ s ≤ 1 := ⟨Stands.nonneg ht.1, ht.2⟩
  have hp : 0 ≤ 1 - s ∧ 1 - s ≤ 1 := by constructor <;> linarith
  have hunit : ∀ {q q' k : ℚ}, 0 ≤ q ∧ q ≤ k → 0 ≤ q' ∧ q' ≤ 1 → 0 ≤ q * q' ∧ q * q' ≤ k :=
    fun hq hq' => ⟨mul_nonneg hq.1 hq'.1, (mul_le_of_le_one_right hq.1 hq'.2).trans hq.2⟩
  have hthree : 0 ≤ 3 * (1 - s) ∧ 3 * (1 - s) ≤ 3 := hunit ⟨by norm_num, le_rfl⟩ hp
  simp only [controls, List.forall_mem_cons, List.not_mem_nil, false_imp_iff, implies_true, and_true]
    at hfinite hbound
  obtain ⟨hx₀, hx₁, hx₂, hx₃⟩ := hfinite
  obtain ⟨hb₀, hb₁, hb₂, hb₃⟩ := hbound
  have hpart₀ := about_part (i := 7) (k := 1) hx₀ hb₀ (by exact_mod_cast hstart)
    (by exact_mod_cast hunit (hunit hp hp) hp) (by norm_num) (by norm_num) hlow hhigh
  have hpart₁ := about_part (i := 18) (k := 3) hx₁ hb₁ (by exact_mod_cast hfirst)
    (by exact_mod_cast hunit (hunit hthree hp) hs) (by norm_num) (by norm_num) hlow hhigh
  have hpart₂ := about_part (i := 15) (k := 3) hx₂ hb₂ (by exact_mod_cast hsecond)
    (by exact_mod_cast hunit (hunit hthree hs) hs) (by norm_num) (by norm_num) hlow hhigh
  have hpart₃ := about_part (i := 4) (k := 1) hx₃ hb₃ (by exact_mod_cast hlast)
    (by exact_mod_cast hunit (hunit hs hs) hs) (by norm_num) (by norm_num) hlow hhigh
  have htwo := about_sum hpart₀.1 hpart₁.1 hpart₀.2 hpart₁.2 (by norm_num) (by norm_num) hlow hhigh
  have hthird := about_sum htwo.1 hpart₂.1 htwo.2 hpart₂.2 (by norm_num) (by norm_num) hlow hhigh
  have hall := about_sum hthird.1 hpart₃.1 hthird.2 hpart₃.2 (by norm_num) (by norm_num) hlow hhigh
  exact ⟨hall.1.mono (by norm_num), hall.2.trans (by norm_num)⟩

theorem near_arc {c : Cubic} (hfinite : ∀ a ∈ c.controls, a.isFinite = true)
    (hbound : ∀ a ∈ c.controls, ‖a.place‖ ≤ b) (ht : t.InUnit s) (hlow : 1 / 2 ^ 40 ≤ b)
    (hhigh : b ≤ 2 ^ 110) : (c.point t).Near (c.arc s) (156 * b / 2 ^ 24) := by
  have hparts : ∀ a ∈ c.controls, a.x.isFinite = true ∧ a.y.isFinite = true :=
    fun a ha => Bool.and_eq_true_iff.mp (hfinite a ha)
  have hx := about_blend Planar.x (fun a ha => (hparts a ha).1)
    (fun a ha => Planar.abs_x_le (hbound a ha)) ht hlow hhigh
  have hy := about_blend Planar.y (fun a ha => (hparts a ha).2)
    (fun a ha => Planar.abs_y_le (hbound a ha)) ht hlow hhigh
  have hpoint := Planar.near_of_parts (a := c.point t) (by
    rw [point, ht.clampUnit]
    exact hx.1) (by
    rw [point, ht.clampUnit]
    exact hy.1) (by linarith [hx.2]) (by linarith [hy.2])
  convert hpoint using 1
  · apply Complex.ext <;>
      · simp only [arc, Planar.place, Complex.add_re, Complex.add_im, Complex.smul_re, Complex.smul_im,
          smul_eq_mul]
        push_cast
        ring
  · push_cast
    ring

end Cubic

/-! ### Paths -/

theorem PathFault.isFinite_of_ofPoints {points : List Planar} (h : ofPoints points = none) :
    ∀ a ∈ points, a.isFinite = true := by
  intro a ha
  have hnone := List.findIdx?_eq_none_iff.mp (Option.map_eq_none_iff.mp h) a ha
  simpa using hnone

theorem Polyline.point_eq {p : Polyline} (hlength : 2 ≤ p.points.length) (t : Single) :
    p.point t = (p.points.getD (Curve.piece t (p.points.length - 1)).1 .zero).lerp
      (p.points.getD ((Curve.piece t (p.points.length - 1)).1 + 1) .zero)
      (Curve.piece t (p.points.length - 1)).2 := by
  rw [point]
  split
  · next heq => simp [heq] at hlength
  · next only heq => simp [heq] at hlength
  · rfl

namespace Path

/-- Bounds of a path: of the rate of its parameter, from below and from above, and of the distance of its
control points from the origin. -/
structure Bounds where
  least : ℚ
  greatest : ℚ
  reach : ℚ

/-- How many last places of its reach the point of a piece may be off. -/
def grain : Path → ℚ
  | polyline _ => 20
  | bezier _ => 156

variable {path : Path} {k : Bounds} {t : Single} {r : ℚ}

theorem grain_nonneg (path : Path) : 0 ≤ path.grain := by
  cases path <;> norm_num [grain]

theorem grain_le (path : Path) : path.grain ≤ 156 := by
  cases path <;> norm_num [grain]

/-- How far a computed point may be from the ideal path. -/
def blur (path : Path) (k : Bounds) : ℚ := (path.grain * k.reach + 2 * k.greatest) / 2 ^ 24

/-- What an activation accepts has pieces, and all its points are finite. -/
theorem of_fault? (h : path.fault? = none) :
    0 < path.pieces ∧ ∀ a ∈ path.controls, a.isFinite = true := by
  cases path with
  | polyline p =>
      simp only [fault?, Polyline.fault?] at h
      split at h
      · cases h
      · next hlength =>
        refine ⟨?_, PathFault.isFinite_of_ofPoints h⟩
        simp only [pieces]
        omega
  | bezier b =>
      simp only [fault?] at h
      refine ⟨Bezier.length_pos_of_fault? h, PathFault.isFinite_of_ofPoints ?_⟩
      rw [Bezier.fault?] at h
      split at h
      · cases h
      · exact h

/-- A path that a follower keeps its speed on: steady, of one piece, and of an ordinary size. -/
structure Even (path : Path) (k : Bounds) : Prop where
  steady : path.Steady k.least k.greatest
  joined : ∀ j, j + 1 < path.pieces → path.arc j 1 = path.arc (j + 1) 0
  near : ∀ a ∈ path.controls, ‖a.place‖ ≤ k.reach
  pieces : path.pieces ≤ 2 ^ 24
  least : 1 / 2 ^ 30 ≤ k.least
  greatest : k.greatest ≤ 2 ^ 101
  reach : 1 / 2 ^ 40 ≤ k.reach ∧ k.reach ≤ 2 ^ 101

theorem Even.reach_nonneg (heven : path.Even k) : 0 ≤ k.reach :=
  le_trans (by norm_num) heven.reach.1

theorem Even.grain_mul_le (heven : path.Even k) {b : ℚ} (hreach : k.reach ≤ b) :
    path.grain * k.reach ≤ 156 * b :=
  mul_le_mul path.grain_le hreach heven.reach_nonneg (by norm_num)

variable (hfault : path.fault? = none) (heven : path.Even k)
include hfault heven

theorem Even.least_le : k.least ≤ k.greatest := by
  have hle := heven.steady.least_le (of_fault? hfault).1
  exact_mod_cast hle

theorem Even.greatest_pos : 0 < k.greatest :=
  lt_of_lt_of_le (by norm_num) (heven.least.trans (heven.least_le hfault))

theorem Even.blur_nonneg : 0 ≤ path.blur k := by
  have hreach := heven.reach_nonneg
  have hgreatest := heven.greatest_pos hfault
  have hgrain := path.grain_nonneg
  rw [blur]
  positivity

theorem Even.ideal_le {x y : ℚ} (hx : 0 ≤ x) (hle : x ≤ y) (hy : y ≤ 1) :
    ‖path.ideal y - path.ideal x‖ ≤ (k.greatest * (y - x) : ℚ) := by
  obtain ⟨hpieces, _⟩ := of_fault? hfault
  have hx : (0 : ℝ) ≤ x := by exact_mod_cast hx
  have hle : (x : ℝ) ≤ y := by exact_mod_cast hle
  push_cast
  exact heven.steady.ideal_le hpieces hx hle (by exact_mod_cast hy)

theorem Even.le_ideal {x y : ℚ} (hx : 0 ≤ x) (hlt : x < y) (hy : y ≤ 1) (hshort : 900 * (y - x) ≤ 1) :
    (k.least * (y - x) : ℚ) ≤ ‖path.ideal y - path.ideal x‖ := by
  obtain ⟨hpieces, _⟩ := of_fault? hfault
  have hx : (0 : ℝ) ≤ x := by exact_mod_cast hx
  have hlt : (x : ℝ) < y := by exact_mod_cast hlt
  push_cast
  exact heven.steady.le_ideal hpieces hx hlt (by exact_mod_cast hy) (by exact_mod_cast hshort)

/-- The point of a piece is near to where the piece leads. -/
theorem near_arc {index : ℕ} {within : Single} {s : ℚ}
    (hpiece : Curve.piece t path.pieces = (index, within)) (hindex : index < path.pieces)
    (hs : within.InUnit s) :
    (path.point t).Near (path.arc index s) (path.grain * k.reach / 2 ^ 24 : ℚ) := by
  obtain ⟨_, hfinite⟩ := of_fault? hfault
  obtain ⟨hlow, hhigh⟩ := heven.reach
  have hbound := heven.near
  cases path with
  | polyline p =>
      have hlength : 2 ≤ p.points.length := by
        simp only [pieces] at hindex
        omega
      have hmem : ∀ i, i < p.points.length → p.points.getD i .zero ∈ p.points := fun i hi => by
        rw [List.getD_eq_getElem _ _ hi]
        exact List.getElem_mem hi
      have hfirst := hmem index (by simp only [pieces] at hindex; omega)
      have hsecond := hmem (index + 1) (by simp only [pieces] at hindex; omega)
      simp only [point, arc]
      rw [Polyline.point_eq hlength]
      simp only [pieces] at hpiece
      rw [hpiece]
      simp only
      obtain ⟨a, ha⟩ : ∃ a, a = p.points.getD index .zero := ⟨_, rfl⟩
      obtain ⟨b, hb⟩ : ∃ b, b = p.points.getD (index + 1) .zero := ⟨_, rfl⟩
      rw [← ha] at hfirst ⊢
      rw [← hb] at hsecond ⊢
      have hsegment := Planar.near_lerp (hfinite a hfirst) (hfinite b hsecond) (hbound a hfirst)
        (hbound b hsecond) hs hlow (hhigh.trans (by norm_num))
      exact ⟨hsegment.finite, by exact_mod_cast hsegment.le⟩
  | bezier b =>
      obtain ⟨c, hc⟩ : ∃ c, b.curves[index]? = some c := ⟨_, List.getElem?_eq_getElem hindex⟩
      have hmem : ∀ a ∈ c.controls, a ∈ (bezier b).controls := fun a ha =>
        List.mem_flatMap.mpr ⟨c, List.mem_of_getElem? hc, ha⟩
      have hcubic := Cubic.near_arc (c := c) (fun a ha => hfinite a (hmem a ha))
        (fun a ha => hbound a (hmem a ha)) hs hlow (hhigh.trans (by norm_num))
      simp only [point, Bezier.point, arc]
      simp only [pieces] at hpiece
      rw [hpiece]
      simp only [hc, Option.map_some, Option.getD_some]
      exact ⟨hcubic.finite, by exact_mod_cast hcubic.le⟩

/-- The piece that a parameter is split into leads to a place that the ideal path reaches at nearly the same
parameter: scaling and cutting off the index each take or add a share of the number of pieces. -/
theorem Even.exists_arc (ht : t.InUnit r) :
    ∃ s q : ℚ, (Curve.piece t path.pieces).1 < path.pieces ∧ (Curve.piece t path.pieces).2.InUnit s ∧
      path.ideal q = path.arc (Curve.piece t path.pieces).1 s ∧ 0 ≤ q ∧ q ≤ 1 ∧ |q - r| ≤ 2 / 2 ^ 24 := by
  obtain ⟨hpieces, _⟩ := of_fault? hfault
  obtain ⟨scaled, s, hscaled, hindex, hs, hwithin⟩ := Curve.exists_piece ht hpieces heven.pieces
  obtain ⟨n, hn⟩ : ∃ n, n = path.pieces := ⟨_, rfl⟩
  obtain ⟨index, hi⟩ : ∃ index, index = (Curve.piece t path.pieces).1 := ⟨_, rfl⟩
  rw [← hi] at hindex hwithin ⊢
  rw [← hn] at hscaled
  have hcount : (n : ℚ) ≤ 2 ^ 24 := by
    rw [hn]
    exact_mod_cast heven.pieces
  have hpos : 0 < (n : ℚ) := by
    rw [hn]
    exact_mod_cast hpieces
  have hr : 0 ≤ r := Stands.nonneg ht.1
  have hproduct : 0 ≤ r * n := mul_nonneg hr hpos.le
  have hscaledn : scaled ≤ n := hscaled.mono hproduct (mul_le_of_le_one_left hpos.le ht.2)
    ((fits_natCast (hn ▸ heven.pieces)).rounds (hcount.trans (by norm_num)))
  have hlow : (index : ℚ) ≤ scaled := by
    have hfloor : index ≤ ⌊scaled⌋₊ := hindex ▸ min_le_left _ _
    exact le_trans (by exact_mod_cast hfloor) (Nat.floor_le hscaled.nonneg)
  have hlast : index + 1 ≤ n := by omega
  have hlast' : (index : ℚ) + 1 ≤ n := by exact_mod_cast hlast
  have hs0 : 0 ≤ s := Stands.nonneg hs.1
  have hshift : |index + s - n * r| ≤ 2 * n / 2 ^ 24 := by
    have hleast : leastPlace / 2 ≤ 1 / 2 ^ 24 := by norm_num [leastPlace]
    have hone : (1 : ℚ) ≤ n := by linarith [Nat.cast_nonneg (α := ℚ) index]
    have herror := hscaled.error_le hproduct (hscaledn.trans_lt (hcount.trans_lt (by norm_num)))
    have herror' := hwithin.error_le (sub_nonneg.mpr hlow) (hs.2.trans_lt (by norm_num))
    have hmax : max (r * n / 2 ^ 24) (leastPlace / 2) ≤ n / 2 ^ 24 :=
      max_le (by gcongr; exact mul_le_of_le_one_left hpos.le ht.2) (by linarith)
    have hmax' : max ((scaled - index) / 2 ^ 24) (leastPlace / 2) ≤ n / 2 ^ 24 := by
      refine max_le ?_ (by linarith)
      gcongr
      linarith [Nat.cast_nonneg (α := ℚ) index]
    calc |index + s - n * r|
      _ = |s - (scaled - index) + (scaled - r * n)| := by ring_nf
      _ ≤ |s - (scaled - index)| + |scaled - r * n| := abs_add_le _ _
      _ ≤ 2 * n / 2 ^ 24 := by linarith
  have hplace : n * ((index + s) / n) = index + s := mul_div_cancel₀ _ hpos.ne'
  refine ⟨s, (index + s) / n, by omega, hs, ?_, by positivity, ?_, ?_⟩
  · refine ideal_eq_arc heven.joined (by omega) (by exact_mod_cast hs0) (by exact_mod_cast hs.2) ?_
    rw [← hn]
    exact_mod_cast hplace
  · rw [div_le_one hpos]
    linarith [hs.2]
  · refine le_of_mul_le_mul_left ?_ hpos
    calc n * |(index + s) / n - r|
      _ = |n * ((index + s) / n - r)| := by rw [abs_mul, abs_of_pos hpos]
      _ = |index + s - n * r| := by rw [mul_sub, hplace]
      _ ≤ n * (2 / 2 ^ 24) := by linarith

/-- Every point that is computed is near to the ideal path. -/
theorem near_ideal (ht : t.InUnit r) : (path.point t).Near (path.ideal r) (path.blur k) := by
  obtain ⟨s, q, hindex, hs, harc, hq, hq', hclose⟩ := heven.exists_arc hfault ht
  have hgreatest := heven.greatest_pos hfault
  have hideal : ‖path.ideal q - path.ideal r‖ ≤ (k.greatest * (2 / 2 ^ 24) : ℚ) := by
    obtain ⟨hbelow, habove⟩ := abs_le.mp hclose
    rcases le_total r q with hle | hle
    · refine (heven.ideal_le hfault (Stands.nonneg ht.1) hle hq').trans (Rat.cast_le.mpr ?_)
      gcongr
    · rw [norm_sub_rev]
      refine (heven.ideal_le hfault hq hle ht.2).trans (Rat.cast_le.mpr ?_)
      gcongr
      linarith
  have hpoint := near_arc hfault heven (t := t) (Prod.mk.eta).symm hindex hs
  rw [← harc] at hpoint
  refine ⟨hpoint.finite, ?_⟩
  have htriangle := norm_sub_le_norm_sub_add_norm_sub (path.point t).place (path.ideal q) (path.ideal r)
  have hle := hpoint.le
  rw [blur]
  push_cast at hideal hle ⊢
  linarith

/-- Every point that is computed is hardly further from the origin than the control points. -/
theorem Even.norm_point_le (ht : t.InUnit r) : ‖(path.point t).place‖ ≤ (2 * k.reach : ℚ) := by
  obtain ⟨s, _, hindex, hs, _⟩ := heven.exists_arc hfault ht
  have hpoint := (near_arc hfault heven (t := t) (Prod.mk.eta).symm hindex hs).le
  have harc : path.arc (Curve.piece t path.pieces).1 s ∈ Metric.closedBall (0 : ℂ) k.reach :=
    arc_mem (convex_closedBall 0 _) (fun a ha => mem_closedBall_zero_iff.mpr (heven.near a ha)) hindex
      (by exact_mod_cast Stands.nonneg hs.1) (by exact_mod_cast hs.2)
  rw [mem_closedBall_zero_iff] at harc
  have htriangle := norm_sub_norm_le (path.point t).place (path.arc (Curve.piece t path.pieces).1 s)
  have hgrain : path.grain * k.reach / 2 ^ 24 ≤ k.reach := by
    linarith [heven.grain_mul_le le_rfl, heven.reach_nonneg]
  have hgrain := (Rat.cast_le (K := ℝ)).mpr hgrain
  push_cast at hpoint hgrain ⊢
  linarith

end Path

end Choreo
