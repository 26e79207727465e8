import Choreo.Number.Circle
import Choreo.Proofs.Number.Bounds

/-!
# Sines and cosines

Each partial sum of a series whose terms alternate and shrink lies between zero and the first term. So
a sine and a cosine are within two of zero, for every angle that is a number, however large.
-/

namespace Choreo

open Float.Model (Format UnpackedFloat)
open Float.Model.UnpackedFloat (Sign)

theorem lands_round (sign : Sign) {m : ℕ} (hm : 0 < m) (e : ℤ) :
    Lands (UnpackedFloat.round .binary32 sign m e) (sign.apply 1 * (m * 2 ^ e)) := by
  obtain ⟨t, ht, hrounds⟩ := stands_round hm e
  have hpositive : Lands (UnpackedFloat.round .binary32 .positive m e) (m * 2 ^ e) :=
    ⟨t, ht.denotes, hrounds.roundsTo (by positivity)⟩
  cases sign with
  | positive => simpa [Sign.apply] using hpositive
  | negative =>
      have hneg : Lands (UnpackedFloat.round .binary32 .negative m e) (-(m * 2 ^ e)) :=
        round_neg .positive m e ▸ hpositive.neg
      simpa [Sign.apply] using hneg

theorem Single.within_ofExact (negative : Bool) {m k : ℕ} {e : ℤ} (h : (m : ℚ) * 2 ^ e ≤ 2 ^ k) :
    (Single.ofExact (.finite negative m e)).Within k := by
  obtain ⟨sign, hsign⟩ : ∃ sign : Sign, sign = if negative then .negative else .positive := ⟨_, rfl⟩
  have hlands : Lands ((Exact.finite negative m e).round .binary32) (sign.apply 1 * (m * 2 ^ e)) := by
    rw [Exact.round]
    simp only [← hsign]
    split
    · next hm =>
      rw [hm, Nat.cast_zero, zero_mul, mul_zero]
      exact (Denotes.zero sign).lands
    · next hm => exact lands_round sign (Nat.pos_of_ne_zero hm) e
  obtain ⟨t, ht, hrounds⟩ := hlands
  refine Means.within (r := t) ht (hrounds.abs_le ?_)
  have hunit : |((sign.apply 1 : ℤ) : ℚ)| = 1 := by cases sign <;> simp [Sign.apply]
  rw [abs_mul, hunit, one_mul, abs_of_nonneg (by positivity)]
  exact h

namespace UnitCircle

theorem series_le (square rounds n term : ℕ) : series square rounds n term ≤ term := by
  cases rounds with
  | zero => exact Nat.zero_le _
  | succ rounds => exact Nat.sub_le _ _

theorem sineWithin_le (angle : ℕ) : sineWithin angle ≤ angle := series_le _ _ _ _

theorem cosineWithin_le (angle : ℕ) : cosineWithin angle ≤ one := series_le _ _ _ _

theorem sineAfter_le (quarters : ℕ) {rest : ℕ} (h : rest ≤ 2 * one) :
    (sineAfter quarters rest).2 ≤ 2 * one := by
  have hsine := (sineWithin_le rest).trans h
  have hcosine := (cosineWithin_le rest).trans (Nat.le_mul_of_pos_left one two_pos)
  rw [sineAfter]
  split
  exacts [hsine, hcosine, hsine, hcosine]

theorem mod_quarter_le (angle : ℕ) : angle % quarter ≤ 2 * one := by
  have hquarter : quarter ≤ 2 * one := by decide +kernel
  exact (Nat.mod_lt angle (by decide +kernel)).le.trans hquarter

theorem within_toSingle (negative : Bool) {magnitude : ℕ} (h : magnitude ≤ 2 * one) :
    (toSingle negative magnitude).Within 1 := by
  refine Single.within_ofExact negative ?_
  have hone : (one : ℚ) = 2 ^ (fractionBits : ℤ) := by
    rw [one, zpow_natCast]
    exact_mod_cast rfl
  rw [zpow_neg, ← div_eq_mul_inv, div_le_iff₀ (two_zpow_pos _), ← hone, pow_one]
  exact_mod_cast h

end UnitCircle

namespace Single

open UnitCircle

theorem exact_of_isFinite {x : Single} (h : x.isFinite = true) :
    ∃ negative m e, x.exact = .finite negative m e := by
  have hfinite : x.toModel.unpack.isFinite = true := h
  rw [exact]
  generalize x.toModel.unpack = u at hfinite
  cases u with
  | notANumber => cases hfinite
  | infinity => cases hfinite
  | zero sign => exact ⟨_, _, _, rfl⟩
  | finite sign m e => exact ⟨_, _, _, rfl⟩

theorem within_sine {x : Single} (h : x.isFinite = true) : x.sine.Within 1 := by
  obtain ⟨negative, m, e, hexact⟩ := exact_of_isFinite h
  rw [sine, hexact]
  exact within_toSingle _ (sineAfter_le _ (mod_quarter_le _))

theorem within_cosine {x : Single} (h : x.isFinite = true) : x.cosine.Within 1 := by
  obtain ⟨negative, m, e, hexact⟩ := exact_of_isFinite h
  rw [cosine, hexact]
  exact within_toSingle _ (sineAfter_le _ (mod_quarter_le _))

/-- A degree is less than a radian. -/
theorem isFinite_toRadians {x : Single} (h : x.isFinite = true) : x.toRadians.isFinite = true := by
  obtain ⟨r, hr, hmax⟩ := exists_means h
  obtain ⟨s, hs, hpos, hlt⟩ := exists_amounts_of_isPositiveFinite (x := radiansPerDegree)
    (by decide +kernel)
  have hle : s ≤ 1 := (hs.le_iff amounts_one).mp (by decide +kernel)
  obtain ⟨t, ht, hrounds⟩ := hr.mul hs.means hmax (by rwa [abs_of_pos hpos])
  have hshrinks : |r * s| ≤ |r| := by
    rw [abs_mul, abs_of_pos hpos]
    exact mul_le_of_le_one_right (abs_nonneg r) hle
  have hbound : |t| ≤ |r| :=
    hrounds.abs.mono (abs_nonneg _) hshrinks (Denotes.roundsTo hr).abs
  exact ht.isFinite_iff.mpr (hbound.trans_lt hmax)

end Single

end Choreo
