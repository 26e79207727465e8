import Choreo.Proofs.Number.Root
import Choreo.Proofs.Number.Tally

/-!
# Bounds

An operation on singles leads beyond what a single has room for only if its operands are large. So an
expression has a finite value if its operands keep to powers of two whose exponents leave enough room,
and those add up along the expression.
-/

namespace Choreo

open Float.Model (Format UnpackedFloat)

/-! ### The error of a rounding -/

theorem exists_rounds {x : ℚ} (hx : 0 ≤ x) : ∃ r, Rounds x r := by
  have hplace := two_zpow_pos (lastPlace x)
  obtain ⟨m, hm⟩ := exists_nearest (q := x / 2 ^ lastPlace x) (by positivity)
  exact ⟨_, m, hm, rfl⟩

/-- Half of the last place is a fixed share of the number, or less than anything. -/
theorem half_lastPlace_le {x : ℚ} (hx : 0 < x) :
    2 ^ lastPlace x / 2 ≤ max (x / 2 ^ 24) (leastPlace / 2) := by
  rcases le_total (Int.log 2 x - 23) (-149) with hlow | hhigh
  · rw [lastPlace, max_eq_right hlow]
    exact le_max_right _ _
  · rw [lastPlace, max_eq_left hhigh]
    refine le_max_of_le_left ?_
    have hlog := zpow_log_le hx
    have hpow : (2 : ℚ) ^ (Int.log 2 x - 23) = 2 ^ Int.log 2 x / 2 ^ 23 := by
      rw [zpow_sub₀ two_ne_zero]
      norm_num
    rw [hpow]
    linarith

/-- Rounding adds at most half of the last place, also where it leads out of the range. -/
theorem Rounds.sub_le {x r : ℚ} (hx : 0 ≤ x) (h : Rounds x r) :
    r - x ≤ max (x / 2 ^ 24) (leastPlace / 2) := by
  rcases hx.eq_or_lt with rfl | hpos
  · rw [rounds_zero h, sub_self]
    exact le_max_of_le_left (by norm_num)
  obtain ⟨m, hm, rfl⟩ := h
  have hle := (le_div_iff₀ (two_zpow_pos _)).mp hm.sub_le
  have hhalf := half_lastPlace_le hpos
  refine (sub_le_sub_right (min_le_left _ _) x).trans ?_
  linarith

/-- Rounding takes at most half of the last place. -/
theorem Rounds.le_add_of_lt {x r : ℚ} (hx : 0 ≤ x) (h : Rounds x r) (hr : r < 2 ^ 128) :
    x - r ≤ max (x / 2 ^ 24) (leastPlace / 2) := by
  rcases hx.eq_or_lt with rfl | hpos
  · rw [rounds_zero h, sub_self]
    exact le_max_of_le_left (by norm_num)
  obtain ⟨m, hm, hmin⟩ := h
  have hvalue : r = m * 2 ^ lastPlace x :=
    (min_choice _ _).elim (fun hleft => hmin.trans hleft) fun hright => absurd hmin (by
      rw [hright]
      exact hr.ne)
  have hle := (div_le_iff₀ (two_zpow_pos _)).mp hm.le_add
  have hhalf := half_lastPlace_le hpos
  rw [hvalue]
  linarith

/-- Rounding takes or adds at most half of the last place. -/
theorem Rounds.error_le {x r : ℚ} (hx : 0 ≤ x) (h : Rounds x r) (hr : r < 2 ^ 128) :
    |r - x| ≤ max (x / 2 ^ 24) (leastPlace / 2) :=
  abs_sub_le_iff.mpr ⟨h.sub_le hx, h.le_add_of_lt hx hr⟩

/-- What is not among the least numbers is rounded by a fixed share of it at most. -/
theorem Rounds.near {x r : ℚ} (h : Rounds x r) (hr : r < 2 ^ 128) (hx : 2 ^ 24 * leastPlace ≤ x) :
    |r - x| ≤ x / 2 ^ 24 := by
  have hleast := leastPlace_pos
  have hnonneg : 0 ≤ x := le_trans (by positivity) hx
  refine (h.error_le hnonneg hr).trans (max_le le_rfl ?_)
  linarith

theorem fits_two_pow (k : ℕ) : Fits (2 ^ k) :=
  ⟨1, k, by norm_num, by omega, by rw [Nat.cast_one, one_mul, zpow_natCast]⟩

/-- A power of two is not rounded past. -/
theorem RoundsTo.abs_le {q t : ℚ} (h : RoundsTo q t) {k : ℕ} (hq : |q| ≤ 2 ^ k) : |t| ≤ 2 ^ k := by
  rcases le_total k 128 with hk | hk
  · have hmax : (2 : ℚ) ^ k ≤ 2 ^ 128 := pow_le_pow_right₀ (by norm_num) hk
    exact h.abs.mono (abs_nonneg q) hq ((fits_two_pow k).rounds hmax)
  · exact h.abs.le_max.trans (pow_le_pow_right₀ (by norm_num) hk)

namespace Single

/-- The single is a number, and at most the power of two away from zero. -/
def Within (x : Single) (k : ℕ) : Prop := ∃ r, x.Means r ∧ |r| ≤ 2 ^ k

variable {x y : Single} {r s : ℚ} {j k : ℕ}

theorem Means.within (h : x.Means r) (hr : |r| ≤ 2 ^ k) : x.Within k := ⟨r, h, hr⟩

theorem abs_lt_max (hr : |r| ≤ 2 ^ k) (hk : k < 128) : |r| < 2 ^ 128 :=
  hr.trans_lt (pow_lt_pow_right₀ (by norm_num) hk)

namespace Within

theorem isFinite (h : x.Within k) (hk : k < 128) : x.isFinite = true := by
  obtain ⟨r, hr, hle⟩ := h
  exact hr.isFinite_iff.mpr (abs_lt_max hle hk)

theorem mono (h : x.Within j) (hle : j ≤ k) : x.Within k := by
  obtain ⟨r, hr, hbound⟩ := h
  exact ⟨r, hr, hbound.trans (pow_le_pow_right₀ (by norm_num) hle)⟩

theorem neg (h : x.Within k) : (-x).Within k := by
  obtain ⟨r, hr, hle⟩ := h
  exact ⟨-r, hr.neg, by rwa [abs_neg]⟩

theorem add (h : x.Within k) (h' : y.Within k) (hk : k < 128) : (x + y).Within (k + 1) := by
  obtain ⟨r, hr, hle⟩ := h
  obtain ⟨s, hs, hle'⟩ := h'
  obtain ⟨t, ht, hrounds⟩ := hr.add hs (abs_lt_max hle hk) (abs_lt_max hle' hk)
  refine ht.within (hrounds.abs_le ((abs_add_le r s).trans ?_))
  rw [pow_succ]
  linarith

theorem sub (h : x.Within k) (h' : y.Within k) (hk : k < 128) : (x - y).Within (k + 1) := by
  obtain ⟨r, hr, hle⟩ := h
  obtain ⟨s, hs, hle'⟩ := h'
  obtain ⟨t, ht, hrounds⟩ := hr.sub hs (abs_lt_max hle hk) (abs_lt_max hle' hk)
  refine ht.within (hrounds.abs_le ((abs_sub r s).trans ?_))
  rw [pow_succ]
  linarith

theorem mul (h : x.Within j) (h' : y.Within k) (hj : j < 128) (hk : k < 128) :
    (x * y).Within (j + k) := by
  obtain ⟨r, hr, hle⟩ := h
  obtain ⟨s, hs, hle'⟩ := h'
  obtain ⟨t, ht, hrounds⟩ := hr.mul hs (abs_lt_max hle hj) (abs_lt_max hle' hk)
  refine ht.within (hrounds.abs_le ?_)
  rw [abs_mul, pow_add]
  exact mul_le_mul hle hle' (abs_nonneg s) (by positivity)

theorem div (h : x.Within j) (h' : y.Means s) (hj : j < 128) (hs : |s| < 2 ^ 128)
    (hlow : 1 ≤ |s| * 2 ^ k) : (x / y).Within (j + k) := by
  obtain ⟨r, hr, hle⟩ := h
  have hpos : 0 < |s| := pos_of_mul_pos_left (one_pos.trans_le hlow) (by positivity)
  obtain ⟨t, ht, hrounds⟩ := hr.div h' (abs_lt_max hle hj) hs (abs_pos.mp hpos)
  refine ht.within (hrounds.abs_le ?_)
  rw [abs_div, div_le_iff₀ hpos, pow_add]
  calc |r|
    _ ≤ 2 ^ j := hle
    _ ≤ 2 ^ j * (|s| * 2 ^ k) := le_mul_of_one_le_right (by positivity) hlow
    _ = 2 ^ j * 2 ^ k * |s| := by ring

end Within

theorem within_zero (k : ℕ) : (0 : Single).Within k :=
  ⟨0, amounts_zero.means, by rw [abs_zero]; positivity⟩

/-! ### What has a finite value has finite operands -/

theorem isFinite_of_repack {u : UnpackedFloat}
    (h : (UnpackedFloat.unpack .binary32 (UnpackedFloat.pack .binary32 u)).isFinite = true) :
    u.isFinite = true := by
  cases u with
  | notANumber => exact absurd h (by decide +kernel)
  | infinity sign => cases sign <;> exact absurd h (by decide +kernel)
  | zero => rfl
  | finite => rfl

theorem isFinite_of_add (h : (x + y).isFinite = true) : x.isFinite = true ∧ y.isFinite = true := by
  have hsum : (UnpackedFloat.add .binary32 x.toModel.unpack y.toModel.unpack).isFinite = true :=
    isFinite_of_repack h
  change x.toModel.unpack.isFinite = true ∧ y.toModel.unpack.isFinite = true
  generalize x.toModel.unpack = u at hsum ⊢
  generalize y.toModel.unpack = v at hsum ⊢
  cases u with
  | notANumber => cases v <;> cases hsum
  | infinity sign =>
      cases v with
      | infinity sign' => cases sign <;> cases sign' <;> cases hsum
      | _ => cases hsum
  | zero => cases v <;> first | exact ⟨rfl, rfl⟩ | cases hsum
  | finite => cases v <;> first | exact ⟨rfl, rfl⟩ | cases hsum

theorem isFinite_of_mul (h : (x * y).isFinite = true) : x.isFinite = true ∧ y.isFinite = true := by
  have hproduct : (UnpackedFloat.mul .binary32 x.toModel.unpack y.toModel.unpack).isFinite = true :=
    isFinite_of_repack h
  change x.toModel.unpack.isFinite = true ∧ y.toModel.unpack.isFinite = true
  generalize x.toModel.unpack = u at hproduct ⊢
  generalize y.toModel.unpack = v at hproduct ⊢
  cases u <;> cases v <;> first | exact ⟨rfl, rfl⟩ | cases hproduct

/-- Only a number that is not too large has a root that is not. -/
theorem isFinite_of_sqrt (h : x.sqrt.isFinite = true) : x.isFinite = true := by
  have hroot : (UnpackedFloat.sqrt .binary32 x.toModel.unpack).isFinite = true :=
    isFinite_of_repack h
  change x.toModel.unpack.isFinite = true
  generalize x.toModel.unpack = u at hroot ⊢
  cases u with
  | notANumber => cases hroot
  | infinity sign => cases sign <;> cases hroot
  | zero => rfl
  | finite => rfl

end Single

end Choreo
