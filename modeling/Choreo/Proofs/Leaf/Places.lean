import Choreo.Proofs.Leaf.Progress

/-!
# Places

A path leads through its points and not far beyond them, and a follower is led along it from where its
entity has been found. So the places of a follower are bounded by the points of its path, its offset and
that position.
-/

namespace Choreo

namespace Single

variable {x : Single} {r : ℚ}

theorem Amounts.toUInt64 (h : x.Amounts r) (hr : r < 2 ^ 64) : x.toUInt64.toNat = ⌊r⌋₊ := by
  have hint : x.toModel.unpack.toInt 0 (UInt64.size - 1) = ⌊r⌋₊ :=
    Stands.toInt h (hr.trans (by norm_num)) _ _
  have hfloor : ⌊r⌋₊ < 2 ^ 64 := (Nat.floor_lt (Stands.nonneg h)).mpr (by exact_mod_cast hr)
  change (UInt64.ofNatClamp (x.toModel.unpack.toInt 0 (UInt64.size - 1)).toNat).toNat = _
  rw [hint, Int.toNat_natCast, UInt64.ofNatClamp, dif_pos (by exact hfloor), UInt64.toNat_ofNatLT]

/-- A parameter of a curve. -/
def InUnit (x : Single) (r : ℚ) : Prop := x.Amounts r ∧ r ≤ 1

theorem InUnit.clampUnit (h : x.InUnit r) : x.clampUnit = x := by
  have hlow : ¬x < 0 := fun hlt =>
    absurd ((h.1.lt_iff amounts_zero).mp hlt) (not_lt.mpr (Stands.nonneg h.1))
  have hhigh : ¬1 < x := fun hlt => absurd ((amounts_one.lt_iff h.1).mp hlt) (not_lt.mpr h.2)
  rw [Single.clampUnit, if_neg hlow, if_neg hhigh]

theorem InUnit.within (h : x.InUnit r) : x.Within 0 :=
  h.1.means.within (by rw [abs_of_nonneg (Stands.nonneg h.1), pow_zero]; exact h.2)

theorem inUnit_zero : (0 : Single).InUnit 0 := ⟨amounts_zero, zero_le_one⟩

/-- What is left of a unit. -/
theorem InUnit.one_sub (h : x.InUnit r) : ∃ s, (1 - x : Single).InUnit s ∧ Rounds (1 - r) s := by
  have hnonneg : 0 ≤ r := Stands.nonneg h.1
  obtain ⟨s, hs, hrounds⟩ := amounts_one.means.sub h.1.means (by norm_num)
    (by rw [abs_of_nonneg hnonneg]; exact h.2.trans_lt (by norm_num))
  have hrounds := hrounds.rounds (sub_nonneg.mpr h.2)
  exact ⟨s, ⟨hs.amounts hrounds.nonneg,
    hrounds.mono (sub_nonneg.mpr h.2) (by linarith) (Stands.rounds amounts_one)⟩, hrounds⟩

end Single

/-! ### Paths -/

namespace Curve

variable {t : Single} {r : ℚ} {count : ℕ}

/-- A parameter is scaled to a number of pieces, and cut to the whole ones that it passes. -/
theorem exists_piece (ht : t.InUnit r) (hpos : 0 < count) (hcount : count ≤ 2 ^ 24) :
    ∃ q s, Rounds (r * count) q ∧ (piece t count).1 = min ⌊q⌋₊ (count - 1) ∧
      (piece t count).2.InUnit s ∧ Rounds (q - (piece t count).1) s := by
  have hnonneg : 0 ≤ r := Stands.nonneg ht.1
  have hscale : 0 ≤ r * count := mul_nonneg hnonneg (Nat.cast_nonneg _)
  have hcast : (count : ℚ) ≤ 2 ^ 24 := by exact_mod_cast hcount
  have hmax : (count : ℚ) < 2 ^ 128 := hcast.trans_lt (by norm_num)
  have hunit : |r| < 2 ^ 128 := by
    rw [abs_of_nonneg hnonneg]
    exact ht.2.trans_lt (by norm_num)
  obtain ⟨q, hq, hrounds⟩ := ht.1.means.mul (Single.amounts_ofCount_of_le hpos hcount).means hunit
    (by rwa [abs_of_nonneg (Nat.cast_nonneg _)])
  have hrounds := hrounds.rounds hscale
  have hscaled := hq.amounts hrounds.nonneg
  have hqcount : q ≤ count := hrounds.mono hscale (mul_le_of_le_one_left (Nat.cast_nonneg _) ht.2)
    ((fits_natCast hcount).rounds hmax.le)
  have hqmax : q < 2 ^ 128 := hqcount.trans_lt hmax
  have hfloor : (t * Single.ofCount count).toUInt64.toNat = ⌊q⌋₊ :=
    hscaled.toUInt64 (hqcount.trans_lt (hcast.trans_lt (by norm_num)))
  simp only [piece, ht.clampUnit, hfloor]
  obtain ⟨index, hindex⟩ : ∃ index, index = min ⌊q⌋₊ (count - 1) := ⟨_, rfl⟩
  rw [← hindex]
  have hlow : (index : ℚ) ≤ q := by
    have hle : index ≤ ⌊q⌋₊ := hindex ▸ min_le_left _ _
    exact le_trans (by exact_mod_cast hle) (Nat.floor_le hrounds.nonneg)
  have hhigh : q ≤ index + 1 := by
    rcases le_total ⌊q⌋₊ (count - 1) with hle | hge
    · rw [hindex, min_eq_left hle]
      exact (Nat.lt_floor_add_one q).le
    · have hlast : index + 1 = count := by omega
      exact hqcount.trans (by exact_mod_cast hlast.ge)
  have hof : (Single.ofCount index).Amounts index := by
    rcases Nat.eq_zero_or_pos index with hzero | hindexpos
    · rw [hzero]
      exact_mod_cast Single.amounts_zero
    · exact Single.amounts_ofCount_of_le hindexpos (by omega)
  obtain ⟨s, hs, hwithin⟩ := hscaled.means.sub hof.means (by rwa [abs_of_nonneg hrounds.nonneg])
    (by rw [abs_of_nonneg (Nat.cast_nonneg _)]; exact hlow.trans_lt hqmax)
  have hwithin := hwithin.rounds (sub_nonneg.mpr hlow)
  have hone : s ≤ 1 :=
    hwithin.mono (sub_nonneg.mpr hlow) (by linarith) (Stands.rounds Single.amounts_one)
  exact ⟨q, s, hrounds, hindex, ⟨hs.amounts hwithin.nonneg, hone⟩, hwithin⟩

end Curve

namespace Path

/-- The points that a path is made of. -/
def controls : Path → List Planar
  | polyline p => p.points
  | bezier b => b.controls

/-- The number of pieces, which take equal shares of the parameter. -/
def pieces : Path → ℕ
  | polyline p => p.points.length - 1
  | bezier b => b.curves.length

/-- All points of the path are within the power of two, and singles can count its pieces. -/
structure Within (path : Path) (k : ℕ) : Prop where
  controls : ∀ a ∈ path.controls, a.Within k
  pieces : path.pieces ≤ 2 ^ 24

end Path

section Points

variable {t : Single} {r : ℚ} {k : ℕ}

theorem Planar.within_getD {points : List Planar} (h : ∀ a ∈ points, a.Within k) (index : ℕ) :
    (points.getD index .zero).Within k := by
  rw [List.getD_eq_getElem?_getD]
  cases hget : points[index]? with
  | none => exact within_zero k
  | some a => exact h a (List.mem_of_getElem? hget)

theorem Polyline.within_point {p : Polyline} (h : ∀ a ∈ p.points, a.Within k)
    (hpieces : p.points.length - 1 ≤ 2 ^ 24) (ht : t.InUnit r) (hk : k < 126) :
    (p.point t).Within (k + 2) := by
  rw [point]
  split
  · exact Planar.within_zero _
  · next only heq => exact (h only (by simp [heq])).mono (Nat.le_add_right k 2)
  · next heq hnil hone =>
    have hpos : 0 < p.points.length - 1 := by
      rcases hpoints : p.points with _ | ⟨a, _ | ⟨b, rest⟩⟩
      · exact absurd hpoints hnil
      · exact absurd hpoints (hone a)
      · simp
    obtain ⟨_, s, _, _, hs, _⟩ := Curve.exists_piece ht hpos hpieces
    exact (Planar.within_getD h _).lerp (Planar.within_getD h _) hs.within hk

/-- The four weights of a cubic are within four. -/
theorem Cubic.within_point {c : Cubic} (h : ∀ a ∈ c.controls, a.Within k) (ht : t.InUnit r)
    (hk : k < 122) : (c.point t).Within (k + 5) := by
  obtain ⟨s, hs, _⟩ := ht.one_sub
  have hthree : (3 : Single).Within 2 := by
    have hof : Single.ofCount 3 = 3 := by decide +kernel
    have hamounts := Single.amounts_ofCount_of_le (k := 3) (by norm_num) (by norm_num)
    rw [hof] at hamounts
    exact hamounts.means.within (by norm_num)
  have hunit : ∀ {x y : Single} {j : ℕ}, j < 3 → x.Within j → y.Within 0 → (x * y).Within j :=
    fun hj hx hy => hx.mul hy (by omega) (by norm_num)
  have ht' := ht.within
  have hu := hs.within
  have hcontrol : ∀ {a : Planar} {x : Single} {j : ℕ}, a ∈ c.controls → j < 3 → x.Within j →
      (a * x).Within (k + j) := fun ha hj hx => (h _ ha).mul hx (by omega) (by omega)
  simp only [controls, List.mem_cons] at hcontrol
  simp only [point, ht.clampUnit]
  have hstart := hcontrol (Or.inl rfl) (by norm_num : 0 < 3)
    (hunit (by norm_num) (hunit (by norm_num) hu hu) hu)
  have hfirst := hcontrol (Or.inr (Or.inl rfl)) (by norm_num : 2 < 3)
    (hunit (by norm_num) (hunit (by norm_num) (hunit (by norm_num) hthree hu) hu) ht')
  have hsecond := hcontrol (Or.inr (Or.inr (Or.inl rfl))) (by norm_num : 2 < 3)
    (hunit (by norm_num) (hunit (by norm_num) (hunit (by norm_num) hthree hu) ht') ht')
  have hlast := hcontrol (Or.inr (Or.inr (Or.inr (Or.inl rfl)))) (by norm_num : 0 < 3)
    (hunit (by norm_num) (hunit (by norm_num) ht' ht') ht')
  have htwo := (hstart.mono (by omega : k + 0 ≤ k + 2)).add hfirst (by omega)
  have hthird := htwo.add (hsecond.mono (by omega)) (by omega)
  exact hthird.add (hlast.mono (by omega)) (by omega)

theorem Bezier.within_point {b : Bezier} (h : ∀ a ∈ b.controls, a.Within k) (ht : t.InUnit r)
    (hpieces : b.curves.length ≤ 2 ^ 24) (hk : k < 122) : (b.point t).Within (k + 5) := by
  simp only [point]
  split
  · next curve hcurve =>
    have hmem := List.mem_of_getElem? hcurve
    obtain ⟨_, s, _, _, hs, _⟩ := Curve.exists_piece ht (List.length_pos_of_mem hmem) hpieces
    exact Cubic.within_point (fun a ha => h a (List.mem_flatMap.mpr ⟨curve, hmem, ha⟩)) hs hk
  · exact Planar.within_zero _

theorem Path.Within.point {path : Path} (h : path.Within k) (ht : t.InUnit r) (hk : k < 122) :
    (path.point t).Within (k + 5) := by
  cases path with
  | polyline p =>
      exact (Polyline.within_point h.controls h.pieces ht (by omega)).mono (by omega)
  | bezier b => exact Bezier.within_point h.controls ht h.pieces hk

end Points

/-! ### Followers -/

/-- A curve that stays within the power of two. -/
def Curve.Bounded (c : Curve) (k : ℕ) : Prop := ∀ t r, t.InUnit r → (c t).Within (k + 5)

namespace Follower

variable {f : Follower} {c : Curve} {offset position : Planar} {t : Single} {r : ℚ} {k : ℕ}

theorem within_localOffset (hoffset : offset.Within k) (hk : k < 126) :
    (localOffset c t offset).Within (k + 2) := by
  rw [localOffset]
  split
  · exact Planar.within_zero _
  · have htangent : ((c.tangent? t Curve.defaultStep).getD .right).Within 1 := by
      cases h : c.tangent? t Curve.defaultStep with
      | none => exact Planar.within_right.mono (Nat.zero_le 1)
      | some u =>
          rw [Curve.tangent?] at h
          split at h <;> exact Planar.within_of_normalize? h
    have halong := htangent.mul hoffset.x (by norm_num) (by omega)
    have hacross := htangent.perp.mul hoffset.y (by norm_num) (by omega)
    exact ((halong.mono (by omega)).add (hacross.mono (by omega)) (by omega : k + 1 < 128))

/-- The follower is not far from its path, and neither was it one update ago. -/
structure Near (f : Follower) (k : ℕ) : Prop where
  origin : f.origin.Within (k + 7)
  last : f.last.Within (k + 9)

variable (hc : c.Bounded k) (hoffset : offset.Within k) (hk : k < 117)
include hc hoffset hk

theorem near_start (hposition : position.Within k) : (start c offset position).Near k := by
  have hzero := hc 0 0 Single.inUnit_zero
  have hlocal := within_localOffset (c := c) (t := 0) hoffset (by omega)
  have hfrom := hzero.add (hlocal.mono (by omega)) (by omega)
  exact ⟨(hposition.mono (by omega)).sub hfrom (by omega), hposition.mono (by omega)⟩

theorem Near.target (h : f.Near k) (ht : t.InUnit r) : (f.target c offset t).Within (k + 9) := by
  have hpoint := h.origin.add ((hc t r ht).mono (by omega)) (by omega)
  exact hpoint.add ((within_localOffset (t := t) hoffset (by omega)).mono (by omega)) (by omega)

/-- Where an advance leads, and with which velocity. -/
theorem Near.advance (h : f.Near k) {step : Single} {s : ℚ} {j : ℕ} (hs : step.Amounts s)
    (hmax : s < 2 ^ 128) (hlow : 1 ≤ s * 2 ^ j)
    (ht : (f.advance c offset t step).1.OnPath r) :
    (f.advance c offset t step).1.Near k ∧ (f.advance c offset t step).2.Within (k + 10 + j) := by
  have hnext : (f.target c offset (f.advance c offset t step).1.t).Within (k + 9) :=
    h.target hc hoffset hk ⟨ht.1.amounts, ht.2⟩
  have hnonneg := Stands.nonneg hs
  refine ⟨⟨h.origin, hnext⟩, ?_⟩
  exact (hnext.sub h.last (by omega)).div hs.means (by omega) (by rwa [abs_of_nonneg hnonneg])
    (by rwa [abs_of_nonneg hnonneg])

end Follower

end Choreo
