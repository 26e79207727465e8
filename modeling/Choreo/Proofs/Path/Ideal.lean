import Choreo.Proofs.Leaf.Places
import Choreo.Proofs.Number.Nearness
import Mathlib.Analysis.Complex.Norm
import Mathlib.Analysis.Convex.Combination

/-!
# The ideal path

Without rounding, a path is a chain of polynomial arcs that the parameter goes through at a rate of its own.
Over any stretch of the parameter the mean rate is a weighted mean of the rates that the control points give
to the pieces of that stretch. So what is true of the control points is true of the way: it is as long as
they allow at most, and leads as far ahead as they all do.
-/

namespace Choreo

/-- The point of the plane that a finite vector stands for. -/
noncomputable def Planar.place (a : Planar) : ℂ := ⟨a.x.number, a.y.number⟩

/-- The part of a unit that starts at zero which a number covers. -/
noncomputable def portion (x : ℝ) : ℝ := max 0 (min 1 x)

section Portion

variable {x y : ℝ}

theorem portion_nonneg (x : ℝ) : 0 ≤ portion x := le_max_left _ _

theorem portion_le_one (x : ℝ) : portion x ≤ 1 := max_le zero_le_one (min_le_left _ _)

theorem portion_of_nonpos (h : x ≤ 0) : portion x = 0 :=
  max_eq_left ((min_le_right _ _).trans h)

theorem portion_of_one_le (h : 1 ≤ x) : portion x = 1 := by
  rw [portion, min_eq_left h, max_eq_right zero_le_one]

theorem portion_of_mem (h : 0 ≤ x) (h' : x ≤ 1) : portion x = x := by
  rw [portion, min_eq_right h', max_eq_right h]

theorem portion_mono (h : x ≤ y) : portion x ≤ portion y :=
  max_le_max_left 0 (min_le_min_left 1 h)

/-- Between two numbers that are both before the unit or both behind it nothing of it is covered. -/
theorem portion_eq_of_outside (h : x ≤ y) (hout : y ≤ 0 ∨ 1 ≤ x) : portion y = portion x := by
  rcases hout with hbefore | hbehind
  · rw [portion_of_nonpos hbefore, portion_of_nonpos (h.trans hbefore)]
  · rw [portion_of_one_le hbehind, portion_of_one_le (hbehind.trans h)]

/-- A number is the sum of the parts that it covers of the units one after another. -/
theorem sum_portion (hx : 0 ≤ x) (n : ℕ) :
    ∑ j ∈ Finset.range n, portion (x - j) = min x n := by
  induction n with
  | zero => simp [hx]
  | succ n ih =>
      rw [Finset.sum_range_succ, ih]
      push_cast
      rcases le_total x n with hle | hge
      · rw [portion_of_nonpos (by linarith), min_eq_left hle, min_eq_left (by linarith), add_zero]
      · rcases le_total x (n + 1) with hle' | hge'
        · rw [portion_of_mem (by linarith) (by linarith), min_eq_right hge, min_eq_left hle']
          ring
        · rw [portion_of_one_le (by linarith), min_eq_right hge, min_eq_right hge']

theorem sum_portion_mul {n : ℕ} (hx : 0 ≤ x) (hx' : x ≤ 1) :
    ∑ j ∈ Finset.range n, portion (n * x - j) = n * x := by
  rw [sum_portion (by positivity), min_eq_left (mul_le_of_le_one_right n.cast_nonneg hx')]

end Portion

/-! ### Arcs -/

namespace Cubic

noncomputable def arc (c : Cubic) (s : ℝ) : ℂ :=
  (1 - s) ^ 3 • c.start.place + (3 * (1 - s) ^ 2 * s) • c.startHandle.place +
    (3 * (1 - s) * s ^ 2) • c.endHandle.place + s ^ 3 • c.finish.place

/-- The differences of neighbouring control points. -/
noncomputable def legs (c : Cubic) : Fin 3 → ℂ :=
  ![c.startHandle.place - c.start.place, c.endHandle.place - c.startHandle.place,
    c.finish.place - c.endHandle.place]

/-- Between two parameters a cubic leads along a mean of its legs, three times over. -/
theorem arc_sub (c : Cubic) {s s' : ℝ} (hs : 0 ≤ s) (hle : s ≤ s') (hs' : s' ≤ 1) :
    ∃ weight : Fin 3 → ℝ, (∀ k, 0 ≤ weight k) ∧ ∑ k, weight k = 1 ∧
      c.arc s' - c.arc s = (s' - s) • ∑ k, weight k • (3 : ℝ) • c.legs k := by
  have hleft : 0 ≤ 1 - s' := by linarith
  have hleft' : 0 ≤ 1 - s := by linarith
  have hnonneg : 0 ≤ s' := hs.trans hle
  have hmiddle : 0 ≤ 3 * (s + s') - 2 * (s ^ 2 + s * s' + s' ^ 2) := by
    nlinarith [mul_nonneg hs hleft', mul_nonneg hnonneg hleft, mul_nonneg hs hleft,
      mul_nonneg hnonneg hleft']
  refine ⟨![((1 - s) ^ 2 + (1 - s) * (1 - s') + (1 - s') ^ 2) / 3,
    (3 * (s + s') - 2 * (s ^ 2 + s * s' + s' ^ 2)) / 3, (s ^ 2 + s * s' + s' ^ 2) / 3], ?_, ?_, ?_⟩
  · intro k
    match k with
    | 0 => exact div_nonneg (by positivity) (by norm_num)
    | 1 => exact div_nonneg hmiddle (by norm_num)
    | 2 => exact div_nonneg (by positivity) (by norm_num)
  · simp only [Fin.sum_univ_three, Matrix.cons_val_zero, Matrix.cons_val_one, Matrix.cons_val]
    ring
  · simp only [Fin.sum_univ_three, legs, Matrix.cons_val_zero, Matrix.cons_val_one, Matrix.cons_val, arc]
    module

theorem arc_mem (c : Cubic) {S : Set ℂ} (hS : Convex ℝ S) (hcontrols : ∀ a ∈ c.controls, a.place ∈ S)
    {s : ℝ} (hs : 0 ≤ s) (hs' : s ≤ 1) : c.arc s ∈ S := by
  have hleft : 0 ≤ 1 - s := by linarith
  simp only [controls, List.forall_mem_cons, List.not_mem_nil, false_imp_iff, implies_true, and_true]
    at hcontrols
  obtain ⟨h₀, h₁, h₂, h₃⟩ := hcontrols
  have hnonneg : ∀ k, 0 ≤ ![(1 - s) ^ 3, 3 * (1 - s) ^ 2 * s, 3 * (1 - s) * s ^ 2, s ^ 3] k := by
    simp only [Fin.forall_fin_succ, Matrix.cons_val_zero, Matrix.cons_val_succ, IsEmpty.forall_iff,
      and_true]
    refine ⟨?_, ?_, ?_, ?_⟩ <;> positivity
  have hplaces : ∀ k, ![c.start.place, c.startHandle.place, c.endHandle.place, c.finish.place] k ∈ S := by
    simp only [Fin.forall_fin_succ, Matrix.cons_val_zero, Matrix.cons_val_succ, IsEmpty.forall_iff,
      and_true]
    exact ⟨h₀, h₁, h₂, h₃⟩
  have hone : ∑ k, ![(1 - s) ^ 3, 3 * (1 - s) ^ 2 * s, 3 * (1 - s) * s ^ 2, s ^ 3] k = 1 := by
    simp [Fin.sum_univ_four]
    ring
  have hmean := hS.sum_mem (fun k _ => hnonneg k) hone fun k _ => hplaces k
  simpa [Fin.sum_univ_four, arc] using hmean

end Cubic

namespace Path

variable {path : Path} {j : ℕ} {r r' s s' : ℝ} {S : Set ℂ}

/-- Where the parameter of a piece leads. -/
noncomputable def arc (path : Path) (j : ℕ) (s : ℝ) : ℂ :=
  match path with
  | polyline p =>
    (p.points.getD j .zero).place +
      s • ((p.points.getD (j + 1) .zero).place - (p.points.getD j .zero).place)
  | bezier b => (b.curves[j]?.map (·.arc s)).getD 0

/-- How fast, and in which directions, the parameter of the path moves through a piece: the rates at the
control points of the derivative. -/
noncomputable def rates (path : Path) (j : ℕ) : Set ℂ :=
  match path with
  | polyline p =>
    {(path.pieces : ℝ) • ((p.points.getD (j + 1) .zero).place - (p.points.getD j .zero).place)}
  | bezier b => {z | ∃ c ∈ b.curves[j]?, ∃ k, z = (path.pieces : ℝ) • (3 : ℝ) • c.legs k}

/-- Where the parameter of the path leads, without rounding. -/
noncomputable def ideal (path : Path) (r : ℝ) : ℂ :=
  path.arc 0 0 + ∑ j ∈ Finset.range path.pieces,
    (path.arc j (portion (path.pieces * r - j)) - path.arc j 0)

/-- The mean rate within a piece is a mean of its rates. -/
theorem exists_arc_sub (hS : Convex ℝ S) (hrates : path.rates j ⊆ S) (hj : j < path.pieces)
    (hs : 0 ≤ s) (hle : s ≤ s') (hs' : s' ≤ 1) :
    ∃ z ∈ S, (path.pieces : ℝ) • (path.arc j s' - path.arc j s) = (s' - s) • z := by
  cases path with
  | polyline p =>
      refine ⟨_, hrates rfl, ?_⟩
      simp only [arc]
      rw [add_sub_add_left_eq_sub, ← sub_smul, smul_comm]
  | bezier b =>
      obtain ⟨c, hc⟩ : ∃ c, b.curves[j]? = some c := ⟨_, List.getElem?_eq_getElem hj⟩
      obtain ⟨weight, hnonneg, hsum, hsub⟩ := c.arc_sub hs hle hs'
      have hmem : ∀ k, (pieces (bezier b) : ℝ) • (3 : ℝ) • c.legs k ∈ S :=
        fun k => hrates ⟨c, hc, k, rfl⟩
      refine ⟨_, hS.sum_mem (fun k _ => hnonneg k) hsum fun k _ => hmem k, ?_⟩
      simp only [arc, hc, Option.map_some, Option.getD_some]
      rw [hsub, smul_comm, Finset.smul_sum]
      simp only [smul_comm (pieces (bezier b) : ℝ)]

/-- A piece stays among its control points. -/
theorem arc_mem (hS : Convex ℝ S) (hcontrols : ∀ a ∈ path.controls, a.place ∈ S) (hj : j < path.pieces)
    (hs : 0 ≤ s) (hs' : s ≤ 1) : path.arc j s ∈ S := by
  cases path with
  | polyline p =>
      have hmem : ∀ i < p.points.length, (p.points.getD i .zero).place ∈ S := fun i hi => by
        rw [List.getD_eq_getElem _ _ hi]
        exact hcontrols _ (List.getElem_mem hi)
      simp only [pieces] at hj
      exact hS.add_smul_sub_mem (hmem j (by omega)) (hmem (j + 1) (by omega)) ⟨hs, hs'⟩
  | bezier b =>
      obtain ⟨c, hc⟩ : ∃ c, b.curves[j]? = some c := ⟨_, List.getElem?_eq_getElem hj⟩
      have hmem : ∀ a ∈ c.controls, a.place ∈ S := fun a ha =>
        hcontrols a (List.mem_flatMap.mpr ⟨c, List.mem_of_getElem? hc, ha⟩)
      simpa only [arc, hc, Option.map_some, Option.getD_some] using c.arc_mem hS hmem hs hs'

/-- The stretch of the parameter leads through some of the piece. -/
def Touches (path : Path) (r r' : ℝ) (j : ℕ) : Prop := j < path.pieces * r' ∧ path.pieces * r < j + 1

theorem portion_mul_mono (hle : r ≤ r') (j : ℕ) :
    portion (path.pieces * r - j) ≤ portion (path.pieces * r' - j) :=
  portion_mono (sub_le_sub_right (mul_le_mul_of_nonneg_left hle path.pieces.cast_nonneg) _)

theorem portion_eq_of_not_touches (hle : r ≤ r') (h : ¬path.Touches r r' j) :
    portion (path.pieces * r' - j) = portion (path.pieces * r - j) := by
  have hscaled : path.pieces * r ≤ path.pieces * r' := by gcongr
  refine portion_eq_of_outside (by linarith) ?_
  rcases le_or_gt (path.pieces * r') j with hbefore | hentered
  · exact .inl (by linarith)
  · have hpassed : (j : ℝ) + 1 ≤ path.pieces * r := not_lt.mp fun hlt => h ⟨hentered, hlt⟩
    exact .inr (by linarith)

/-- Of each piece a stretch covers a portion, at a mean of the rates of the piece. -/
theorem exists_arc_portion_sub (hS : Convex ℝ S) (hj : j < path.pieces) (hle : r ≤ r')
    (hrates : path.Touches r r' j → path.rates j ⊆ S) :
    ∃ z : ℂ, (path.Touches r r' j → z ∈ S) ∧
      (path.pieces : ℝ) • (path.arc j (portion (path.pieces * r' - j)) -
          path.arc j (portion (path.pieces * r - j))) =
        (portion (path.pieces * r' - j) - portion (path.pieces * r - j)) • z := by
  by_cases htouched : path.Touches r r' j
  · obtain ⟨z, hz, hsub⟩ := exists_arc_sub hS (hrates htouched) hj (portion_nonneg _)
      (portion_mul_mono hle j) (portion_le_one _)
    exact ⟨z, fun _ => hz, hsub⟩
  · refine ⟨0, fun h => absurd h htouched, ?_⟩
    rw [portion_eq_of_not_touches hle htouched, sub_self, smul_zero, smul_zero]

/-- The mean rate over a stretch is a mean of the rates of the pieces that the stretch touches. -/
theorem exists_ideal_sub (hS : Convex ℝ S) (hr : 0 ≤ r) (hlt : r < r') (hr' : r' ≤ 1)
    (hpieces : 0 < path.pieces)
    (hrates : ∀ j < path.pieces, path.Touches r r' j → path.rates j ⊆ S) :
    ∃ z ∈ S, path.ideal r' - path.ideal r = (r' - r) • z := by
  classical
  have hmean : ∀ j ∈ Finset.range path.pieces, ∃ z : ℂ, (path.Touches r r' j → z ∈ S) ∧
      (path.pieces : ℝ) • (path.arc j (portion (path.pieces * r' - j)) -
          path.arc j (portion (path.pieces * r - j))) =
        (portion (path.pieces * r' - j) - portion (path.pieces * r - j)) • z := fun j hj =>
    have hj := Finset.mem_range.mp hj
    exists_arc_portion_sub hS hj hlt.le (hrates j hj)
  choose! z hz hsub using hmean
  have hpos : (0 : ℝ) < path.pieces := by exact_mod_cast hpieces
  have hspan : 0 < path.pieces * (r' - r) := mul_pos hpos (sub_pos.mpr hlt)
  -- A piece weighs as much as the stretch covers of it.
  obtain ⟨weight, hweight⟩ : ∃ weight : ℕ → ℝ, ∀ j, weight j =
      (portion (path.pieces * r' - j) - portion (path.pieces * r - j)) / (path.pieces * (r' - r)) :=
    ⟨_, fun _ => rfl⟩
  obtain ⟨touched, htouched⟩ : ∃ touched : Finset ℕ, touched =
      (Finset.range path.pieces).filter fun j => path.Touches r r' j := ⟨_, rfl⟩
  have hzero : ∀ j ∈ Finset.range path.pieces, j ∉ touched → weight j = 0 := by
    intro j hj hnot
    have huntouched : ¬path.Touches r r' j := fun h =>
      hnot (htouched ▸ Finset.mem_filter.mpr ⟨hj, h⟩)
    rw [hweight, portion_eq_of_not_touches hlt.le huntouched, sub_self, zero_div]
  have hsubset : touched ⊆ Finset.range path.pieces := htouched ▸ Finset.filter_subset _ _
  refine ⟨∑ j ∈ touched, weight j • z j, hS.sum_mem (fun j _ => ?_) ?_ fun j hj => ?_, ?_⟩
  · rw [hweight]
    exact div_nonneg (sub_nonneg.mpr (portion_mul_mono hlt.le j)) hspan.le
  · rw [Finset.sum_subset hsubset fun j hj hnot => hzero j hj hnot]
    simp only [hweight]
    rw [← Finset.sum_div, Finset.sum_sub_distrib, sum_portion_mul (hr.trans hlt.le) hr',
      sum_portion_mul hr (hlt.le.trans hr'), ← mul_sub, div_self hspan.ne']
  · rw [htouched, Finset.mem_filter] at hj
    exact hz j hj.1 hj.2
  · have hsame : (path.pieces : ℝ) • (path.ideal r' - path.ideal r) =
        (path.pieces : ℝ) • ((r' - r) • ∑ j ∈ touched, weight j • z j) := by
      rw [ideal, ideal, add_sub_add_left_eq_sub, ← Finset.sum_sub_distrib, Finset.smul_sum,
        Finset.sum_subset hsubset fun j hj hnot => by rw [hzero j hj hnot, zero_smul],
        smul_smul, Finset.smul_sum]
      refine Finset.sum_congr rfl fun j hj => ?_
      rw [sub_sub_sub_cancel_right, hsub j hj, smul_smul, hweight, mul_div_cancel₀ _ hspan.ne']
    exact smul_right_injective ℂ hpos.ne' hsame

/-- Where the pieces join, the chain of arcs is the path. -/
theorem ideal_eq_arc (hjoined : ∀ i, i + 1 < path.pieces → path.arc i 1 = path.arc (i + 1) 0)
    (hj : j < path.pieces) (hs : 0 ≤ s) (hs' : s ≤ 1) (hplace : path.pieces * r = j + s) :
    path.ideal r = path.arc j s := by
  have hafter : ∀ i ∈ Finset.range path.pieces, i ∉ Finset.range (j + 1) →
      path.arc i (portion (path.pieces * r - i)) - path.arc i 0 = 0 := by
    intro i _ hi
    have hle : (j : ℝ) + 1 ≤ i := by
      rw [Finset.mem_range, not_lt] at hi
      exact_mod_cast hi
    rw [hplace, portion_of_nonpos (by linarith), sub_self]
  have hbefore : ∀ i ∈ Finset.range j,
      path.arc i (portion (path.pieces * r - i)) - path.arc i 0 = path.arc (i + 1) 0 - path.arc i 0 := by
    intro i hi
    have hi := Finset.mem_range.mp hi
    have hle : (i : ℝ) + 1 ≤ j := by exact_mod_cast hi
    rw [hplace, portion_of_one_le (by linarith), hjoined i (by omega)]
  have hown : path.pieces * r - j = s := by rw [hplace, add_sub_cancel_left]
  rw [ideal, ← Finset.sum_subset (Finset.range_subset_range.mpr hj) hafter, Finset.sum_range_succ,
    Finset.sum_congr rfl hbefore, Finset.sum_range_sub (path.arc · 0), hown, portion_of_mem hs hs']
  ring

/-! ### Even paths -/

/-- How far a way leads in a direction. -/
def along (u z : ℂ) : ℝ := u.re * z.re + u.im * z.im

theorem along_le_norm {u : ℂ} (hu : ‖u‖ ≤ 1) (z : ℂ) : along u z ≤ ‖z‖ := by
  have hconj : along u z = (star u * z).re := by
    simp [along]
  calc along u z
    _ = (star u * z).re := hconj
    _ ≤ ‖star u * z‖ := Complex.re_le_norm _
    _ = ‖u‖ * ‖z‖ := by rw [norm_mul, norm_star]
    _ ≤ 1 * ‖z‖ := by gcongr
    _ = ‖z‖ := one_mul _

theorem convex_along (u : ℂ) (v : ℝ) : Convex ℝ {z | v ≤ along u z} := by
  intro x hx y hy a b ha hb hab
  have hx : v ≤ along u x := hx
  have hy : v ≤ along u y := hy
  have hsum : along u (a • x + b • y) = a * along u x + b * along u y := by
    simp [along]
    ring
  change v ≤ along u (a • x + b • y)
  calc v
    _ = a * v + b * v := by rw [← add_mul, hab, one_mul]
    _ ≤ a * along u x + b * along u y :=
        add_le_add (mul_le_mul_of_nonneg_left hx ha) (mul_le_mul_of_nonneg_left hy hb)
    _ = along u (a • x + b • y) := hsum.symm

/-- No rate is greater than `greatest`, and wherever the parameter covers a nine hundredth, there is a
direction in which all rates are at least `least`. -/
structure Steady (path : Path) (least greatest : ℝ) : Prop where
  le : ∀ j < path.pieces, ∀ z ∈ path.rates j, ‖z‖ ≤ greatest
  ahead : ∀ i < path.pieces, ∃ u : ℂ, ‖u‖ ≤ 1 ∧ ∀ j < path.pieces, i ≤ j →
    900 * j < 900 * (i + 1) + path.pieces → ∀ z ∈ path.rates j, least ≤ along u z

theorem rates_nonempty (hj : j < path.pieces) : (path.rates j).Nonempty := by
  cases path with
  | polyline p => exact Set.singleton_nonempty _
  | bezier b => exact ⟨_, _, List.getElem?_eq_getElem hj, 0, rfl⟩

variable {least greatest : ℝ}

theorem Steady.least_le (h : path.Steady least greatest) (hpieces : 0 < path.pieces) :
    least ≤ greatest := by
  obtain ⟨u, hu, hahead⟩ := h.ahead 0 hpieces
  obtain ⟨z, hz⟩ := rates_nonempty hpieces
  calc least
    _ ≤ along u z := hahead 0 hpieces le_rfl (by omega) z hz
    _ ≤ ‖z‖ := along_le_norm hu z
    _ ≤ greatest := h.le 0 hpieces z hz

theorem Steady.ideal_le (h : path.Steady least greatest) (hpieces : 0 < path.pieces) (hr : 0 ≤ r)
    (hle : r ≤ r') (hr' : r' ≤ 1) : ‖path.ideal r' - path.ideal r‖ ≤ greatest * (r' - r) := by
  rcases hle.eq_or_lt with rfl | hlt
  · simp
  have hball : Convex ℝ (Metric.closedBall (0 : ℂ) greatest) := convex_closedBall 0 _
  obtain ⟨z, hz, hsub⟩ := exists_ideal_sub hball hr hlt hr' hpieces fun j hj _ z hz =>
    mem_closedBall_zero_iff.mpr (h.le j hj z hz)
  rw [hsub, norm_smul, Real.norm_of_nonneg (sub_nonneg.mpr hle), mul_comm]
  exact mul_le_mul_of_nonneg_right (mem_closedBall_zero_iff.mp hz) (sub_nonneg.mpr hle)

theorem Steady.le_ideal (h : path.Steady least greatest) (hpieces : 0 < path.pieces) (hr : 0 ≤ r)
    (hlt : r < r') (hr' : r' ≤ 1) (hshort : 900 * (r' - r) ≤ 1) :
    least * (r' - r) ≤ ‖path.ideal r' - path.ideal r‖ := by
  obtain ⟨n, hn⟩ : ∃ n : ℝ, n = path.pieces := ⟨_, rfl⟩
  have hpos : 0 < n := by
    rw [hn]
    exact_mod_cast hpieces
  have hscaled : 0 ≤ n * r := by positivity
  obtain ⟨i, hi⟩ : ∃ i, i = ⌊n * r⌋₊ := ⟨_, rfl⟩
  have hile : (i : ℝ) ≤ n * r := hi ▸ Nat.floor_le hscaled
  have hlti : n * r < i + 1 := hi ▸ Nat.lt_floor_add_one (n * r)
  have hin : i < path.pieces := by
    have hlt : (i : ℝ) < n := hile.trans_lt (mul_lt_of_lt_one_right hpos (hlt.trans_le hr'))
    rw [hn] at hlt
    exact_mod_cast hlt
  obtain ⟨u, hu, hahead⟩ := h.ahead i hin
  obtain ⟨z, hz, hsub⟩ := exists_ideal_sub (convex_along u least) hr hlt hr' hpieces
    fun j hj htouched z hz => by
      obtain ⟨hbefore, hafter⟩ := htouched
      rw [← hn] at hbefore hafter
      refine hahead j hj ?_ ?_ z hz
      · have hlt : (i : ℝ) < j + 1 := hile.trans_lt hafter
        exact Nat.lt_succ_iff.mp (by exact_mod_cast hlt)
      · have hreach : 900 * (j : ℝ) < 900 * (i + 1) + n := by nlinarith
        rw [hn] at hreach
        exact_mod_cast hreach
  have hspan : 0 ≤ r' - r := sub_nonneg.mpr hlt.le
  rw [hsub, norm_smul, Real.norm_of_nonneg hspan, mul_comm]
  exact mul_le_mul_of_nonneg_left (hz.trans (along_le_norm hu z)) hspan

end Path

end Choreo
