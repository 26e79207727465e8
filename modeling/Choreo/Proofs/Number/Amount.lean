import Choreo.Proofs.Number.Count
import Choreo.Proofs.Number.Rounding

/-!
# What a single amounts to

A single that is not negative stands for a rational number, and an infinity for the number from which
on all are too large. Singles are compared as the numbers they stand for, a count, a sum or a quotient
stands for the rounded number, and a cut to a whole number cuts the number.
-/

namespace Choreo

open Float.Model (Format UnpackedFloat totalExponent)
open Float.Model.UnpackedFloat (ExtendedMantissa Sign Accuracy)

/-! ### The form of a single -/

theorem targetExponent_single (t : ℤ) :
    Format.binary32.targetExponent t = max (t - 24) (-149) := by
  simp only [Format.targetExponent, Format.mantissaBits, Format.minExponent]
  norm_num

/-- The mantissa fills its place, or the exponent is the least there is. -/
structure Canonical (m : ℕ) (e : ℤ) : Prop where
  lt : m < 2 ^ 24
  le : -149 ≤ e
  full : 2 ^ 23 ≤ m ∨ e = -149

theorem Canonical.fits {m : ℕ} {e : ℤ} (h : Canonical m e) : Fits (m * 2 ^ e) :=
  ⟨m, e, h.lt, h.le, rfl⟩

/-- Numbers of the one form are compared by their exponents first. -/
theorem Canonical.lt_of_exponent_lt {m m' : ℕ} {e e' : ℤ} (h : Canonical m e)
    (h' : Canonical m' e') (hlt : e < e') : (m : ℚ) * 2 ^ e < m' * 2 ^ e' := by
  have hfull : 2 ^ 23 ≤ m' := by
    have hleast := h.le
    rcases h'.full with hfull | hleast'
    · exact hfull
    · omega
  have hm : (m : ℚ) < 2 ^ 24 := by exact_mod_cast h.lt
  have hm' : (2 : ℚ) ^ 23 ≤ m' := by exact_mod_cast hfull
  have he := two_zpow_pos e
  calc (m : ℚ) * 2 ^ e
    _ < 2 ^ 24 * 2 ^ e := by gcongr
    _ = 2 ^ 23 * 2 ^ (e + 1) := by rw [two_zpow_add]; ring
    _ ≤ m' * 2 ^ e' := by
        gcongr
        · norm_num
        · omega

theorem compare_canonical {m m' : ℕ} {e e' : ℤ} (h : Canonical m e) (h' : Canonical m' e') :
    (compare e e').then (compare m m') = compare ((m : ℚ) * 2 ^ e) (m' * 2 ^ e') := by
  rcases lt_trichotomy e e' with hlt | rfl | hgt
  · rw [compare_lt_iff_lt.mpr hlt, compare_lt_iff_lt.mpr (h.lt_of_exponent_lt h' hlt)]
    rfl
  · have he := two_zpow_pos e
    rw [compare_eq_iff_eq.mpr rfl, Ordering.eq_then]
    rcases lt_trichotomy m m' with hm | rfl | hm
    · rw [compare_lt_iff_lt.mpr hm, compare_lt_iff_lt.mpr]
      gcongr
    · rw [compare_eq_iff_eq.mpr rfl, compare_eq_iff_eq.mpr rfl]
    · rw [compare_gt_iff_gt.mpr hm, compare_gt_iff_gt.mpr]
      gcongr
  · rw [compare_gt_iff_gt.mpr hgt, compare_gt_iff_gt.mpr (h'.lt_of_exponent_lt h hgt)]
    rfl

/-- The number that an unpacked single stands for, if it is not negative. -/
inductive Stands : UnpackedFloat → ℚ → Prop
  | zero (sign : Sign) : Stands (.zero sign) 0
  | finite {m : ℕ} {e : ℤ} (h : 0 < m) (canonical : Canonical m e) (le : e ≤ 104) :
      Stands (.finite .positive m e h) (m * 2 ^ e)
  | infinity : Stands (.infinity .positive) (2 ^ 128)

/-- The single is not negative and stands for the number. -/
def Single.Amounts (x : Single) (r : ℚ) : Prop := Stands x.toModel.unpack r

theorem canonical_of_log {m : ℕ} {e : ℤ} (h : 0 < m) (hlog : m.log2 ≤ 23) (he : -149 ≤ e)
    (hfull : m.log2 = 23 ∨ e = -149) : Canonical m e where
  lt := (Nat.log2_lt h.ne').mp (Nat.lt_succ_of_le hlog)
  le := he
  full := hfull.imp_left fun hlog => ((Nat.log2_eq_iff h.ne').mp hlog).1

theorem canonical_of_unpack {bits : BitVec Format.binary32.numBits} {sign : Sign} {m : ℕ} {e : ℤ}
    {h : 0 < m} (hu : UnpackedFloat.unpack .binary32 bits = .finite sign m e h) :
    Canonical m e ∧ e ≤ 104 := by
  obtain ⟨hlog, hlow, hhigh, hsettled⟩ := Exact.finite_of_unpack_single hu
  rw [Exact.Settled, targetExponent_single, totalExponent] at hsettled
  exact ⟨canonical_of_log h hlog hlow (by omega), hhigh⟩

namespace Stands

variable {u v : UnpackedFloat} {r s : ℚ}

theorem nonneg (h : Stands u r) : 0 ≤ r := by
  cases h with
  | zero => exact le_rfl
  | finite => positivity
  | infinity => positivity

theorem fits (h : Stands u r) : Fits r := by
  cases h with
  | zero => exact ⟨0, 0, by norm_num, by norm_num, by norm_num⟩
  | finite _ canonical _ => exact canonical.fits
  | infinity => exact fits_max

theorem eq_zero {sign : Sign} (h : Stands (.zero sign) r) : r = 0 := by
  cases h
  rfl

theorem ne_zero {sign : Sign} (h : Stands u r) (hr : 0 < r) : u ≠ .zero sign := by
  rintro rfl
  exact hr.ne' h.eq_zero

theorem lt_of_finite {m : ℕ} {e : ℤ} (h : Canonical m e) (he : e ≤ 104) :
    (m : ℚ) * 2 ^ e < 2 ^ 128 := by
  have hm : (m : ℚ) < 2 ^ 24 := by exact_mod_cast h.lt
  have hpos := two_zpow_pos e
  calc (m : ℚ) * 2 ^ e
    _ < 2 ^ 24 * 2 ^ e := by gcongr
    _ ≤ 2 ^ 24 * 2 ^ (104 : ℤ) := by
        gcongr
        norm_num
    _ = 2 ^ 128 := by norm_num

theorem le_max (h : Stands u r) : r ≤ 2 ^ 128 := by
  cases h with
  | zero => positivity
  | finite _ canonical le => exact (lt_of_finite canonical le).le
  | infinity => exact le_rfl

theorem isNaN_eq_false (h : Stands u r) : u.isNaN = false := by
  cases h <;> rfl

/-- Only an infinity stands for what is too large. -/
theorem lt_of_isFinite (h : Stands u r) (hu : u.isFinite = true) : r < 2 ^ 128 := by
  cases h with
  | zero => positivity
  | finite _ canonical le => exact lt_of_finite canonical le
  | infinity => cases hu

/-- A single stands for a number without rounding. -/
theorem rounds (h : Stands u r) : Rounds r r := h.fits.rounds h.le_max

theorem compare_eq (h : Stands u r) (h' : Stands v s) : u.compare v = some (compare r s) := by
  cases h with
  | zero sign =>
      cases h' with
      | zero => rw [compare_eq_iff_eq.mpr rfl]; rfl
      | @finite m e hm canonical le =>
          have hpos : (0 : ℚ) < m * 2 ^ e := by positivity
          rw [compare_lt_iff_lt.mpr hpos]
          rfl
      | infinity => rw [compare_lt_iff_lt.mpr (by positivity)]; rfl
  | @finite m e hm canonical le =>
      have hpos : (0 : ℚ) < m * 2 ^ e := by positivity
      cases h' with
      | zero => rw [compare_gt_iff_gt.mpr hpos]; rfl
      | finite _ canonical' _ =>
          rw [UnpackedFloat.compare, compare_canonical canonical canonical']
      | infinity => rw [compare_lt_iff_lt.mpr (lt_of_finite canonical le)]; rfl
  | infinity =>
      cases h' with
      | zero => rw [compare_gt_iff_gt.mpr (by positivity)]; rfl
      | finite _ canonical le =>
          rw [compare_gt_iff_gt.mpr (lt_of_finite canonical le)]
          rfl
      | infinity => rw [compare_eq_iff_eq.mpr rfl]; rfl

end Stands

namespace Single.Amounts

variable {x y : Single} {r s : ℚ}

theorem le_iff (h : x.Amounts r) (h' : y.Amounts s) : x ≤ y ↔ r ≤ s := by
  have hle : x ≤ y ↔ (x.toModel.unpack.compare y.toModel.unpack).any (·.isLE) = true :=
    decide_eq_true_iff
  rw [hle, Stands.compare_eq h h', Option.any_some, ← Ordering.ne_gt_iff_isLE]
  exact compare_le_iff_le

theorem lt_iff (h : x.Amounts r) (h' : y.Amounts s) : x < y ↔ r < s := by
  rw [Single.lt_iff, UnpackedFloat.lt, Stands.compare_eq h h', ← compare_lt_iff_lt]
  simp

end Single.Amounts

/-! ### Rounding -/

/-- A mantissa that is cut off a number shows the last place of the number, if it goes as far down. -/
theorem targetExponent_of_cuts {m : ℕ} {e : ℤ} {q : ℚ} (hm : (m : ℚ) ≤ q) (hq : q < m + 1)
    (hpos : 0 < q) (he : e ≤ lastPlace (q * 2 ^ e)) :
    Format.binary32.targetExponent (totalExponent m e) = lastPlace (q * 2 ^ e) := by
  have hplace := two_zpow_pos e
  rw [targetExponent_single, totalExponent]
  rcases Nat.eq_zero_or_pos m with rfl | hmpos
  · have hlow : Int.log 2 (q * 2 ^ e) < e := by
      refine (Int.lt_zpow_iff_log_lt (by norm_num) (by positivity)).mp ?_
      have hlt : q * 2 ^ e < 1 * 2 ^ e := by
        gcongr
        simpa using hq
      exact_mod_cast (one_mul ((2 : ℚ) ^ e)).le.trans_lt' hlt
    rw [lastPlace] at he ⊢
    simp only [Nat.log2_zero]
    omega
  · have hlog : Int.log 2 (q * 2 ^ e) = m.log2 + e := by
      have hhigh : (m : ℚ) + 1 ≤ 2 ^ (m.log2 + 1) := by exact_mod_cast Nat.lt_log2_self
      have hlow : (2 : ℚ) ^ m.log2 ≤ m := by exact_mod_cast Nat.log2_self_le hmpos.ne'
      refine log_eq ?_ ?_
      · rw [two_zpow_add, zpow_natCast]
        gcongr
        exact hlow.trans hm
      · rw [add_right_comm, two_zpow_add, ← Nat.cast_add_one, zpow_natCast]
        gcongr
        exact hq.trans_le hhigh
    rw [lastPlace, hlog]
    omega

theorem Cuts.bounds {q : ℚ} {em : ExtendedMantissa} (h : Cuts q em) :
    (em.mantissa : ℚ) ≤ q ∧ q < em.mantissa + 1 := by
  obtain ⟨hnonneg, hlt, _⟩ := h
  split_ifs at hnonneg hlt <;> constructor <;> linarith

/-- What rounding leaves, before it is known whether a single has room for the exponent. -/
inductive Kept : UnpackedFloat → ℚ → Prop
  | zero : Kept (.zero .positive) 0
  | finite {m : ℕ} {e : ℤ} (h : 0 < m) (canonical : Canonical m e) :
      Kept (.finite .positive m e h) (m * 2 ^ e)

/-- A rounded mantissa is brought into form without further loss. -/
theorem shiftToTargetExponent_rounded {n : ℕ} {p : ℤ} (hn : n ≤ 2 ^ 24) (hp : -149 ≤ p)
    (hfull : 2 ^ 23 ≤ n ∨ p = -149) :
    ∃ (m : ℕ) (e : ℤ), UnpackedFloat.shiftToTargetExponent .binary32 n p .exact =
        (⟨m, false, false⟩, e) ∧ Canonical m e ∧ (m : ℚ) * 2 ^ e = n * 2 ^ p := by
  rcases hn.lt_or_eq with hlt | rfl
  · have hlog : n.log2 ≤ 23 := by
      rcases Nat.eq_zero_or_pos n with rfl | hpos
      · simp
      · exact Nat.lt_succ_iff.mp ((Nat.log2_lt hpos.ne').mpr hlt)
    have hstay : (Format.binary32.targetExponent (totalExponent n p) - p).toNat = 0 := by
      rw [targetExponent_single, totalExponent]
      omega
    refine ⟨n, p, ?_, ⟨hlt, hp, hfull⟩, rfl⟩
    rw [UnpackedFloat.shiftToTargetExponent, UnpackedFloat.shiftToExponent, hstay]
    simp [HShiftRight.hShiftRight, Nat.repeat, ExtendedMantissa.ofMantissaAndAccuracy]
  -- Rounding up has carried into a bit of its own.
  · have hone : (Format.binary32.targetExponent (totalExponent (2 ^ 24) p) - p).toNat = 1 := by
      rw [targetExponent_single, totalExponent, Nat.log2_two_pow]
      omega
    refine ⟨2 ^ 23, p + 1, ?_, ⟨by norm_num, by omega, Or.inl le_rfl⟩, ?_⟩
    · rw [UnpackedFloat.shiftToTargetExponent, UnpackedFloat.shiftToExponent, hone]
      rfl
    · rw [two_zpow_add]
      push_cast
      ring

/-- A number that has been cut no further up than its last place is rounded to the nearest. -/
theorem kept_roundWithAccuracy {m : ℕ} {e : ℤ} {acc : Accuracy} {q : ℚ}
    (hcuts : Cuts q (.ofMantissaAndAccuracy m acc)) (hpos : 0 < q)
    (he : e ≤ lastPlace (q * 2 ^ e)) :
    ∃ n : ℕ, Nearest (q * 2 ^ e / 2 ^ lastPlace (q * 2 ^ e)) n ∧
      Kept (UnpackedFloat.roundWithAccuracy .binary32 .positive m e acc)
        (n * 2 ^ lastPlace (q * 2 ^ e)) := by
  have hmantissa : (ExtendedMantissa.ofMantissaAndAccuracy m acc).mantissa = m := by
    cases acc with
    | exact => rfl
    | inexact o => cases o <;> rfl
  obtain ⟨hlow, hhigh⟩ := hcuts.bounds
  rw [hmantissa] at hlow hhigh
  have htarget := targetExponent_of_cuts hlow hhigh hpos he
  obtain ⟨k, hk⟩ : ∃ k : ℕ, lastPlace (q * 2 ^ e) = e + k :=
    ⟨(lastPlace (q * 2 ^ e) - e).toNat, by omega⟩
  have hx : 0 < q * 2 ^ e := mul_pos hpos (two_zpow_pos e)
  have hfirst : UnpackedFloat.shiftToTargetExponent .binary32 m e acc =
      (ExtendedMantissa.ofMantissaAndAccuracy m acc >>> k, lastPlace (q * 2 ^ e)) := by
    have hshift : (lastPlace (q * 2 ^ e) - e).toNat = k := by omega
    rw [UnpackedFloat.shiftToTargetExponent, htarget, UnpackedFloat.shiftToExponent, hshift, hk]
  have hshifted : q / 2 ^ k = q * 2 ^ e / 2 ^ lastPlace (q * 2 ^ e) := by
    rw [hk, two_zpow_add, zpow_natCast, mul_comm q, mul_div_mul_left _ _ (two_zpow_pos e).ne']
  have hnearest := (hcuts.shift k).nearest
  rw [hshifted] at hnearest
  set n := (ExtendedMantissa.ofMantissaAndAccuracy m acc >>> k).roundedMantissa with hn
  have hfull : 2 ^ 23 ≤ n ∨ lastPlace (q * 2 ^ e) = -149 :=
    (neg_le_lastPlace (q * 2 ^ e)).lt_or_eq.imp (hnearest.le_mantissa hx) Eq.symm
  obtain ⟨m', e', hsecond, hcanonical, hvalue⟩ :=
    shiftToTargetExponent_rounded hnearest.mantissa_le (neg_le_lastPlace _) hfull
  refine ⟨n, hnearest, ?_⟩
  rw [UnpackedFloat.roundWithAccuracy, hfirst]
  simp only [← hn, hsecond, ← hvalue]
  split
  · next hzero =>
    rw [hzero, Nat.cast_zero, zero_mul]
    exact .zero
  · exact .finite _ hcanonical

/-! ### Packing -/

theorem unpack_pack_subnormal {m : ℕ} {h : 0 < m} (hm : m < 2 ^ 23) :
    UnpackedFloat.unpack .binary32 (UnpackedFloat.pack .binary32 (.finite .positive m (-149) h)) =
      .finite .positive m (-149) h := by
  have hlog : m.log2 < 23 := (Nat.log2_lt h.ne').mpr hm
  have hbias : (Format.binary32.exponentBias : ℤ) = 127 := by decide
  have hpack : UnpackedFloat.pack .binary32 (.finite .positive m (-149) h) =
      UnpackedFloat.packComponents .binary32 .positive 0#_ (BitVec.ofNat _ m) := by
    rw [UnpackedFloat.pack]
    simp only [hbias, Format.mantissaBits]
    rw [if_neg (by decide), if_neg (by omega)]
  have hmantissa : (BitVec.ofNat 23 m).toNat = m := Nat.mod_eq_of_lt hm
  have hnonzero : BitVec.ofNat 23 m ≠ 0#_ := by
    rw [Ne, ← BitVec.toNat_inj, hmantissa]
    exact h.ne'
  rw [hpack, UnpackedFloat.unpack]
  simp only [UnpackedFloat.unpackExponent_packComponents,
    UnpackedFloat.unpackMantissa_packComponents, UnpackedFloat.unpackSign_packComponents,
    Sign.ofBitVec_toBitVec]
  rw [if_neg (by decide), if_pos trivial, dif_neg hnonzero]
  congr 1

theorem Kept.stands {u : UnpackedFloat} {r : ℚ} (h : Kept u r) :
    Stands (UnpackedFloat.unpack .binary32 (UnpackedFloat.pack .binary32 u)) (min r (2 ^ 128)) := by
  cases h with
  | zero =>
      rw [min_eq_left (by positivity)]
      exact .zero .positive
  | @finite m e hm canonical =>
    have hbias : (Format.binary32.exponentBias : ℤ) = 127 := by decide
    have hleast := canonical.le
    rcases le_or_gt e 104 with he | he
    · have hunpack : UnpackedFloat.unpack .binary32
          (UnpackedFloat.pack .binary32 (.finite .positive m e hm)) = .finite .positive m e hm := by
        by_cases hfull : 2 ^ 23 ≤ m
        · have hlog : m.log2 = 23 := (Nat.log2_eq_iff hm.ne').mpr ⟨hfull, canonical.lt⟩
          refine Exact.unpack_pack_normal (by rw [hlog]; rfl) ?_ ?_
          · rw [hbias]
            change 0 < e + 127 + 23
            omega
          · rw [hbias]
            norm_num
            omega
        · obtain rfl : e = -149 := canonical.full.resolve_left hfull
          exact unpack_pack_subnormal (by omega)
      rw [hunpack, min_eq_left (Stands.lt_of_finite canonical he).le]
      exact .finite hm canonical he
    · have hfull : 2 ^ 23 ≤ m := canonical.full.resolve_right (by omega)
      have hpack : UnpackedFloat.pack .binary32 (.finite .positive m e hm) =
          UnpackedFloat.packedInfinity .binary32 .positive := by
        rw [UnpackedFloat.pack]
        simp only [hbias]
        rw [if_pos]
        have hlarge : 2 ^ 8 ≤ (e + 127 + 23).toNat + 1 := by omega
        exact hlarge
      have hmax : (2 : ℚ) ^ 128 ≤ m * 2 ^ e := by
        have hm' : (2 : ℚ) ^ 23 ≤ m := by exact_mod_cast hfull
        calc (2 : ℚ) ^ 128
          _ = 2 ^ 23 * 2 ^ (105 : ℤ) := by norm_num
          _ ≤ m * 2 ^ e := by
              gcongr
              · norm_num
              · omega
      rw [hpack, min_eq_right hmax]
      exact .infinity

/-- Rounding a number that is not negative never yields a negative zero. -/
theorem Kept.ne_negative {u : UnpackedFloat} {r : ℚ} (h : Kept u r) :
    UnpackedFloat.unpack .binary32 (UnpackedFloat.pack .binary32 u) ≠ .zero .negative := by
  have hstands := h.stands
  cases h with
  | zero =>
      change UnpackedFloat.zero .positive ≠ .zero .negative
      simp
  | @finite m e hm canonical =>
      have hpos : (0 : ℚ) < m * 2 ^ e := mul_pos (Nat.cast_pos.mpr hm) (two_zpow_pos e)
      exact hstands.ne_zero (lt_min hpos (by positivity))

/-! ### Operations -/

/-- The rounded number, packed. -/
theorem stands_roundWithAccuracy {m : ℕ} {e : ℤ} {acc : Accuracy} {q : ℚ}
    (hcuts : Cuts q (.ofMantissaAndAccuracy m acc)) (hpos : 0 < q)
    (he : e ≤ lastPlace (q * 2 ^ e)) :
    ∃ r, Stands (UnpackedFloat.unpack .binary32 (UnpackedFloat.pack .binary32
        (UnpackedFloat.roundWithAccuracy .binary32 .positive m e acc))) r ∧
      Rounds (q * 2 ^ e) r := by
  obtain ⟨n, hn, hkept⟩ := kept_roundWithAccuracy hcuts hpos he
  exact ⟨_, hkept.stands, n, hn, rfl⟩

theorem stands_round {m : ℕ} (hm : 0 < m) (e : ℤ) :
    ∃ r, Stands (UnpackedFloat.unpack .binary32 (UnpackedFloat.pack .binary32
        (UnpackedFloat.round .binary32 .positive m e))) r ∧ Rounds (m * 2 ^ e) r := by
  have htarget : Format.binary32.targetExponent (totalExponent m e) = lastPlace (m * 2 ^ e) := by
    rw [targetExponent_single, totalExponent, lastPlace_natCast_mul hm]
    omega
  obtain ⟨k, hk⟩ : ∃ k : ℕ, (e - lastPlace (m * 2 ^ e)).toNat = k := ⟨_, rfl⟩
  have hsame : ((m * 2 ^ k : ℕ) : ℚ) * 2 ^ (e - k) = m * 2 ^ e := by
    have hpow : (2 : ℚ) ^ e = 2 ^ k * 2 ^ (e - k) := two_zpow_of_eq (by omega)
    push_cast
    rw [hpow, mul_assoc]
  have hmk : (0 : ℚ) < (m * 2 ^ k : ℕ) := by positivity
  have hstands := stands_roundWithAccuracy (e := e - k) (cuts_natCast (m * 2 ^ k)) hmk
    (by rw [hsame]; omega)
  rw [hsame] at hstands
  rw [UnpackedFloat.round, htarget]
  simp only [UnpackedFloat.decreaseExponent, hk, Nat.shiftLeft_eq]
  exact hstands

/-- Packing a single once more changes nothing. -/
theorem Stands.repack {u : UnpackedFloat} {r : ℚ} (h : Stands u r) :
    Stands (UnpackedFloat.unpack .binary32 (UnpackedFloat.pack .binary32 u)) r := by
  have hmax := h.le_max
  cases h with
  | zero sign => cases sign <;> exact .zero _
  | finite hm canonical le =>
      have hkept := (Kept.finite hm canonical).stands
      rwa [min_eq_left hmax] at hkept
  | infinity => exact .infinity

theorem stands_add {u v : UnpackedFloat} {r s : ℚ} (hu : Stands u r) (hv : Stands v s) :
    ∃ t, Stands (UnpackedFloat.unpack .binary32 (UnpackedFloat.pack .binary32
      (UnpackedFloat.add .binary32 u v))) t ∧ Rounds (r + s) t := by
  cases hu with
  | zero sign =>
      have hrounds : Rounds (0 + s) s := by simpa using hv.rounds
      refine ⟨s, ?_, hrounds⟩
      cases hv with
      | zero sign' => cases sign <;> cases sign' <;> exact .zero _
      | finite hm canonical le => exact (Stands.finite hm canonical le).repack
      | infinity => exact Stands.infinity.repack
  | @finite m e hm canonical le =>
      have hu : Stands (.finite .positive m e hm) (m * 2 ^ e) := .finite hm canonical le
      cases hv with
      | zero sign' => exact ⟨_, hu.repack, by simpa using hu.rounds⟩
      | @finite m' e' hm' canonical' le' =>
          -- Both are written with the smaller exponent.
          obtain ⟨k, hk⟩ : ∃ k : ℕ, (e - min e e').toNat = k := ⟨_, rfl⟩
          obtain ⟨k', hk'⟩ : ∃ k : ℕ, (e' - min e e').toNat = k := ⟨_, rfl⟩
          have hsum : ((m * 2 ^ k + m' * 2 ^ k' : ℕ) : ℚ) * 2 ^ min e e' =
              m * 2 ^ e + m' * 2 ^ e' := by
            have he : (2 : ℚ) ^ e = 2 ^ k * 2 ^ min e e' := two_zpow_of_eq (by omega)
            have he' : (2 : ℚ) ^ e' = 2 ^ k' * 2 ^ min e e' := two_zpow_of_eq (by omega)
            push_cast
            rw [he, he']
            ring
          have hpos : 0 < m * 2 ^ k + m' * 2 ^ k' := by positivity
          have hadd : UnpackedFloat.add .binary32 (.finite .positive m e hm)
              (.finite .positive m' e' hm') =
              UnpackedFloat.round .binary32 .positive (m * 2 ^ k + m' * 2 ^ k') (min e e') := by
            have hcompare : compare ((m : ℤ) * 2 ^ k + m' * 2 ^ k') 0 = .gt := by
              rw [compare_gt_iff_gt]
              positivity
            rw [UnpackedFloat.add]
            simp only [UnpackedFloat.decreaseExponent, hk, hk', Nat.shiftLeft_eq, Sign.apply,
              UnpackedFloat.normalize]
            push_cast
            rw [hcompare]
            rfl
          rw [← hsum, hadd]
          exact stands_round hpos _
      | infinity => exact ⟨_, Stands.infinity.repack, rounds_of_le (by simpa using hu.nonneg)⟩
  | infinity =>
      have hrounds := rounds_of_le (x := 2 ^ 128 + s) (by simpa using hv.nonneg)
      refine ⟨_, ?_, hrounds⟩
      cases hv <;> exact Stands.infinity.repack

/-- What becomes of a quotient: an infinity stays one, and the divisor may have been rounded to zero. -/
inductive Quotient (r s t : ℚ) : Prop
  | endless (h : r = 2 ^ 128 ∨ s = 0) (ht : t = 2 ^ 128)
  | rounds (hr : r < 2 ^ 128) (hs : 0 < s) (h : Rounds (r / s) t)

namespace Quotient

variable {r r' s t t' : ℚ}

theorem le_max (h : Quotient r s t) : t ≤ 2 ^ 128 := by
  cases h with
  | endless _ ht => exact ht.le
  | rounds _ _ h => exact h.le_max

/-- A larger dividend has a larger quotient. -/
theorem mono (hr : 0 ≤ r) (hle : r ≤ r') (h : Quotient r s t) (h' : Quotient r' s t') : t ≤ t' := by
  cases h' with
  | endless _ ht => exact ht ▸ h.le_max
  | rounds hr' hs h' =>
      cases h with
      | endless h _ =>
          rcases h with rfl | rfl
          · exact absurd (hr'.trans_le hle) (lt_irrefl _)
          · exact absurd hs (lt_irrefl _)
      | rounds _ _ h => exact h.mono (by positivity) (by gcongr) h'

end Quotient

/-- The quotient of two mantissas is cut, and not before the last place of the quotient. -/
theorem div_finite {m m' : ℕ} (hm : 0 < m) (hm' : 0 < m') (e e' : ℤ) :
    ∃ (n : ℕ) (f : ℤ) (acc : Accuracy),
      UnpackedFloat.div .binary32 (.finite .positive m e hm) (.finite .positive m' e' hm') =
          UnpackedFloat.roundWithAccuracy .binary32 .positive n f acc ∧
        ∃ q : ℚ, Cuts q (.ofMantissaAndAccuracy n acc) ∧ 0 < q ∧
          f ≤ lastPlace (q * 2 ^ f) ∧ q * 2 ^ f = m * 2 ^ e / (m' * 2 ^ e') := by
  obtain ⟨f, hf⟩ : ∃ f : ℤ, f = min (e - e')
      (Format.binary32.targetExponent (totalExponent m e - totalExponent m' e')) := ⟨_, rfl⟩
  obtain ⟨k, hk⟩ : ∃ k : ℕ, (e - e' - f).toNat = k := ⟨_, rfl⟩
  have hmcast : (0 : ℚ) < m := Nat.cast_pos.mpr hm
  have hmcast' : (0 : ℚ) < m' := Nat.cast_pos.mpr hm'
  have hvalue : ((m * 2 ^ k : ℕ) : ℚ) / m' * 2 ^ f = m * 2 ^ e / (m' * 2 ^ e') := by
    have he : (2 : ℚ) ^ e = 2 ^ k * 2 ^ f * 2 ^ e' := by
      rw [two_zpow_of_eq (e := e) (f := f + e') (k := k) (by omega), two_zpow_add, mul_assoc]
    rw [he]
    push_cast
    field_simp
  -- A quotient has at least as many bits as the dividend has more than the divisor.
  have hlog : m.log2 + e - m'.log2 - e' - 1 ≤ Int.log 2 ((m : ℚ) * 2 ^ e / (m' * 2 ^ e')) := by
    refine (Int.zpow_le_iff_le_log (by norm_num) (by positivity)).mp ?_
    have hlow : (2 : ℚ) ^ m.log2 ≤ m := by exact_mod_cast Nat.log2_self_le hm.ne'
    have hhigh : (m' : ℚ) ≤ 2 ^ (m'.log2 + 1) := by exact_mod_cast Nat.lt_log2_self.le
    have hsplit : (2 : ℚ) ^ (m.log2 + e - m'.log2 - e' - 1) =
        2 ^ m.log2 * 2 ^ e / (2 ^ (m'.log2 + 1) * 2 ^ e') := by
      rw [eq_div_iff (by positivity), ← zpow_natCast, ← zpow_natCast, ← two_zpow_add,
        ← two_zpow_add, ← two_zpow_add]
      congr 1
      push_cast
      ring
    push_cast
    rw [hsplit]
    gcongr
  refine ⟨m * 2 ^ k / m', f, UnpackedFloat.accuracyOfFraction (m * 2 ^ k % m') m', ?_,
    (m * 2 ^ k : ℕ) / m', cuts_div _ hm', by positivity, ?_, hvalue⟩
  · rw [UnpackedFloat.div]
    simp only [UnpackedFloat.divCore, ← hf, hk, Nat.shiftLeft_eq]
    rfl
  · rw [hvalue, lastPlace]
    rw [targetExponent_single, totalExponent, totalExponent] at hf
    omega

theorem stands_div {u v : UnpackedFloat} {r s : ℚ} (hu : Stands u r) (hv : Stands v s)
    (hr : 0 < r) (hs : s < 2 ^ 128) (hsign : v ≠ .zero .negative) :
    ∃ t, Stands (UnpackedFloat.unpack .binary32 (UnpackedFloat.pack .binary32
        (UnpackedFloat.div .binary32 u v))) t ∧ Quotient r s t ∧
      UnpackedFloat.unpack .binary32 (UnpackedFloat.pack .binary32
        (UnpackedFloat.div .binary32 u v)) ≠ .zero .negative := by
  -- An infinite quotient stays what it is.
  have hendless (h : r = 2 ^ 128 ∨ s = 0)
      (hdiv : UnpackedFloat.div .binary32 u v = .infinity .positive) :
      ∃ t, Stands (UnpackedFloat.unpack .binary32 (UnpackedFloat.pack .binary32
          (UnpackedFloat.div .binary32 u v))) t ∧ Quotient r s t ∧
        UnpackedFloat.unpack .binary32 (UnpackedFloat.pack .binary32
          (UnpackedFloat.div .binary32 u v)) ≠ .zero .negative := by
    rw [hdiv]
    refine ⟨2 ^ 128, Stands.infinity.repack, .endless h rfl, ?_⟩
    change UnpackedFloat.infinity .positive ≠ .zero .negative
    simp
  cases hv with
  | zero sign =>
      obtain rfl : sign = .positive := by cases sign <;> simp_all
      cases hu with
      | zero => exact absurd hr (lt_irrefl 0)
      | finite => exact hendless (.inr rfl) rfl
      | infinity => exact hendless (.inr rfl) rfl
  | @finite m' e' hm' canonical' le' =>
    have hpos : (0 : ℚ) < m' * 2 ^ e' := mul_pos (Nat.cast_pos.mpr hm') (two_zpow_pos e')
    cases hu with
    | zero => exact absurd hr (lt_irrefl 0)
    | @finite m e hm canonical le =>
        obtain ⟨n, f, acc, hdiv, q, hcuts, hq, hf, hvalue⟩ := div_finite hm hm' e e'
        obtain ⟨k, hk, hkept⟩ := kept_roundWithAccuracy hcuts hq hf
        rw [hvalue] at hk hkept
        rw [hdiv]
        exact ⟨_, hkept.stands, .rounds (Stands.lt_of_finite canonical le) hpos ⟨k, hk, rfl⟩,
          hkept.ne_negative⟩
    | infinity => exact hendless (.inl rfl) rfl
  | infinity => exact absurd hs (lt_irrefl _)

/-! ### Cutting to a whole number -/

theorem Stands.toInt {u : UnpackedFloat} {r : ℚ} (h : Stands u r) (hr : r < 2 ^ 128) (low high : ℤ) :
    u.toInt low high = ⌊r⌋₊ := by
  cases h with
  | zero => simp [UnpackedFloat.toInt]
  | @finite m e hm canonical le =>
      rw [UnpackedFloat.toInt]
      rcases le_or_gt e 0 with he | he
      · obtain ⟨n, rfl⟩ : ∃ n : ℕ, e = -n := ⟨(-e).toNat, by omega⟩
        have hdiv : (m : ℚ) * 2 ^ (-(n : ℤ)) = (m : ℚ) / (2 ^ n : ℕ) := by
          rw [zpow_neg, zpow_natCast, Nat.cast_pow, Nat.cast_ofNat, div_eq_mul_inv]
        rw [Single.roundToInt_positive, hdiv, Nat.floor_div_eq_div]
      · obtain ⟨n, rfl⟩ : ∃ n : ℕ, e = n := ⟨e.toNat, by omega⟩
        have hmul : (m : ℚ) * 2 ^ (n : ℤ) = (m * 2 ^ n : ℕ) := by push_cast; rfl
        rw [hmul, Nat.floor_natCast]
        simp [UnpackedFloat.roundToInt, UnpackedFloat.decreaseExponent,
          UnpackedFloat.shiftToExponent, Sign.apply, Single.shift_mantissa,
          ExtendedMantissa.ofMantissaAndAccuracy, Nat.shiftLeft_eq]
  | infinity => exact absurd hr (lt_irrefl _)

/-! ### Singles -/

namespace Single

namespace Amounts

variable {x y : Single} {r s : ℚ}

theorem add (h : x.Amounts r) (h' : y.Amounts s) : ∃ t, (x + y).Amounts t ∧ Rounds (r + s) t :=
  stands_add h h'

theorem div (h : x.Amounts r) (h' : y.Amounts s) (hr : 0 < r) (hs : s < 2 ^ 128)
    (hsign : y.toModel.unpack ≠ .zero .negative) :
    ∃ t, (x / y).Amounts t ∧ Quotient r s t ∧ (x / y).toModel.unpack ≠ .zero .negative :=
  stands_div h h' hr hs hsign

theorem lesser (h : x.Amounts r) (h' : y.Amounts s) : (x.lesser y).Amounts (min r s) := by
  have hnumber : x.isNaN = false := Stands.isNaN_eq_false h
  rw [Single.lesser, hnumber, if_neg Bool.false_ne_true]
  split
  · next hlt => rwa [min_eq_right (lt_iff h' h |>.mp hlt).le]
  · next hle => rwa [min_eq_left (not_lt.mp fun hlt => hle ((lt_iff h' h).mpr hlt))]

theorem toUInt32 (h : x.Amounts r) (hr : r < 2 ^ 32) : x.toUInt32.toNat = ⌊r⌋₊ := by
  have hint : x.toModel.unpack.toInt 0 (UInt32.size - 1) = ⌊r⌋₊ :=
    Stands.toInt h (hr.trans (by norm_num)) _ _
  have hfloor : ⌊r⌋₊ < 2 ^ 32 := (Nat.floor_lt (Stands.nonneg h)).mpr (by exact_mod_cast hr)
  change (UInt32.ofNatClamp (x.toModel.unpack.toInt 0 (UInt32.size - 1)).toNat).toNat = _
  rw [hint, Int.toNat_natCast, UInt32.ofNatClamp, dif_pos (by exact hfloor), UInt32.toNat_ofNatLT]

end Amounts

theorem amounts_ofCount {k : ℕ} (hk : 0 < k) : ∃ t, (ofCount k).Amounts t ∧ Rounds k t := by
  have hround : (Exact.finite false k 0).round .binary32 =
      UnpackedFloat.round .binary32 .positive k 0 := by
    rw [Exact.round, if_neg hk.ne']
    rfl
  have hstands := stands_round hk 0
  rw [zpow_zero, mul_one, ← hround] at hstands
  exact hstands

theorem amounts_zero : (0 : Single).Amounts 0 := Stands.zero .positive

/-- What is not below a single that stands for a number stands for one. -/
theorem exists_amounts_of_le {x y : Single} {r : ℚ} (h : x.Amounts r) (hxy : x ≤ y) :
    ∃ s, y.Amounts s ∧ r ≤ s := by
  have hform : ∀ sign m e h, y.toModel.unpack = .finite sign m e h → Canonical m e ∧ e ≤ 104 :=
    fun sign m e h hu => canonical_of_unpack hu
  have hle : (x.toModel.unpack.compare y.toModel.unpack).any (·.isLE) = true :=
    decide_eq_true_iff.mp hxy
  have hsome : ∃ s, Stands y.toModel.unpack s := by
    change Stands x.toModel.unpack r at h
    generalize x.toModel.unpack = u at h hle
    generalize y.toModel.unpack = v at hle hform
    cases v with
    | notANumber => cases h <;> cases hle
    | zero sign => exact ⟨_, .zero sign⟩
    | infinity sign =>
        cases sign with
        | negative => cases h <;> cases hle
        | positive => exact ⟨_, .infinity⟩
    | finite sign m e hm =>
        cases sign with
        | negative => cases h <;> cases hle
        | positive =>
            obtain ⟨hcanonical, hhigh⟩ := hform .positive m e hm rfl
            exact ⟨_, .finite hm hcanonical hhigh⟩
  obtain ⟨s, hs⟩ := hsome
  exact ⟨s, hs, (h.le_iff hs).mp hxy⟩

theorem exists_amounts {x : Single} (hx : 0 ≤ x) : ∃ r, x.Amounts r :=
  (exists_amounts_of_le amounts_zero hx).imp fun _ h => h.1

theorem le_of_lt {x y : Single} (h : x < y) : x ≤ y := by
  have hlt : x.toModel.unpack.compare y.toModel.unpack = some .lt := by
    simpa [UnpackedFloat.lt] using (lt_iff x y).mp h
  refine decide_eq_true_iff.mpr ?_
  change (x.toModel.unpack.compare y.toModel.unpack).any (·.isLE) = true
  rw [hlt]
  rfl

theorem nonneg_of_not_le {x : Single} (hfinite : x.isFinite = true) (hx : ¬x ≤ 0) : 0 ≤ x := by
  have hle : ¬(UnpackedFloat.compare x.toModel.unpack (.zero .positive)).any (·.isLE) = true :=
    fun h => hx (decide_eq_true_iff.mpr h)
  have hnumber : x.toModel.unpack.isFinite = true := hfinite
  refine decide_eq_true_iff.mpr ?_
  change (UnpackedFloat.compare (.zero .positive) x.toModel.unpack).any (·.isLE) = true
  generalize x.toModel.unpack = u at hle hnumber
  cases u with
  | notANumber => cases hnumber
  | infinity => cases hnumber
  | zero => rfl
  | finite sign m e h =>
      cases sign with
      | negative => exact absurd rfl hle
      | positive => rfl

/-- A positive duration stands for a positive number. -/
theorem exists_amounts_pos {x : Single} (hfinite : x.isFinite = true) (hx : ¬x ≤ 0) :
    ∃ r, x.Amounts r ∧ 0 < r ∧ r < 2 ^ 128 := by
  obtain ⟨r, hr⟩ := exists_amounts (nonneg_of_not_le hfinite hx)
  exact ⟨r, hr, not_le.mp fun h => hx ((hr.le_iff amounts_zero).mpr h),
    Stands.lt_of_isFinite hr hfinite⟩

end Single

end Choreo
