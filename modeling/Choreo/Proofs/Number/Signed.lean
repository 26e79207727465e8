import Choreo.Proofs.Number.Amount

/-!
# Signed singles

Rounding and the operations on singles treat a number and its negative alike, so what is known of
amounts carries over to singles of either sign. A finite single means a rational number, a sum, a
difference, a product or a quotient means the rounded one, and singles are compared as the numbers they
mean.
-/

namespace Choreo

open Float.Model (Format UnpackedFloat totalExponent)
open Float.Model.UnpackedFloat (ExtendedMantissa Sign Accuracy)

/-! ### Rounding -/

/-- What a number becomes in a single, whatever its sign. -/
def RoundsTo (q t : ℚ) : Prop := 0 ≤ q ∧ Rounds q t ∨ q ≤ 0 ∧ Rounds (-q) (-t)

theorem Rounds.roundsTo {q t : ℚ} (hq : 0 ≤ q) (h : Rounds q t) : RoundsTo q t := Or.inl ⟨hq, h⟩

theorem RoundsTo.neg {q t : ℚ} (h : RoundsTo q t) : RoundsTo (-q) (-t) := by
  rcases h with ⟨hq, h⟩ | ⟨hq, h⟩
  · exact Or.inr ⟨neg_nonpos.mpr hq, by rwa [neg_neg, neg_neg]⟩
  · exact Or.inl ⟨neg_nonneg.mpr hq, h⟩

theorem rounds_zero {t : ℚ} (h : Rounds 0 t) : t = 0 := by
  have hdouble := h.le_two_mul le_rfl
  exact le_antisymm (by linarith) h.nonneg

namespace RoundsTo

variable {q q' t t' : ℚ}

theorem abs (h : RoundsTo q t) : Rounds |q| |t| := by
  rcases h with ⟨hq, h⟩ | ⟨hq, h⟩
  · rwa [abs_of_nonneg hq, abs_of_nonneg h.nonneg]
  · rwa [abs_of_nonpos hq, abs_of_nonpos (neg_nonneg.mp h.nonneg)]

theorem rounds (h : RoundsTo q t) (hq : 0 ≤ q) : Rounds q t := by
  rcases h with ⟨_, h⟩ | ⟨hq', h⟩
  · exact h
  · obtain rfl : q = 0 := le_antisymm hq' hq
    rw [neg_zero] at h
    obtain rfl : t = 0 := neg_eq_zero.mp (rounds_zero h)
    rwa [neg_zero] at h

/-- Rounding keeps the order on both sides of zero. -/
theorem mono (hle : q ≤ q') (h : RoundsTo q t) (h' : RoundsTo q' t') : t ≤ t' := by
  rcases le_total 0 q with hq | hq
  · exact (h.rounds hq).mono hq hle (h'.rounds (hq.trans hle))
  · have hneg := h.neg.rounds (neg_nonneg.mpr hq)
    rcases le_total 0 q' with hq' | hq'
    · exact (neg_nonneg.mp hneg.nonneg).trans (h'.rounds hq').nonneg
    · have hneg' := h'.neg.rounds (neg_nonneg.mpr hq')
      exact neg_le_neg_iff.mp (hneg'.mono (neg_nonneg.mpr hq') (neg_le_neg hle) hneg)

theorem eq (h : RoundsTo q t) (h' : RoundsTo q t') : t = t' :=
  le_antisymm (h.mono le_rfl h') (h'.mono le_rfl h)

end RoundsTo

/-! ### Signs -/

theorem unpack_packComponents_neg (sign : Sign) (exponent : BitVec 8) (mantissa : BitVec 23) :
    UnpackedFloat.unpack .binary32
        (UnpackedFloat.packComponents .binary32 (-sign) exponent mantissa) =
      (UnpackedFloat.unpack .binary32
        (UnpackedFloat.packComponents .binary32 sign exponent mantissa)).neg := by
  rw [UnpackedFloat.unpack, UnpackedFloat.unpack]
  simp only [UnpackedFloat.unpackExponent_packComponents,
    UnpackedFloat.unpackMantissa_packComponents, UnpackedFloat.unpackSign_packComponents,
    Sign.ofBitVec_toBitVec]
  split_ifs <;> rfl

/-- The sign has a bit of its own. -/
theorem unpack_pack_neg (u : UnpackedFloat) :
    UnpackedFloat.unpack .binary32 (UnpackedFloat.pack .binary32 u.neg) =
      (UnpackedFloat.unpack .binary32 (UnpackedFloat.pack .binary32 u)).neg := by
  cases u with
  | notANumber => rfl
  | infinity sign => cases sign <;> rfl
  | zero sign => cases sign <;> rfl
  | finite sign m e h =>
      simp only [UnpackedFloat.neg, UnpackedFloat.pack]
      split_ifs
      · cases sign <;> rfl
      · exact unpack_packComponents_neg sign _ _
      · exact unpack_packComponents_neg sign _ _

theorem roundWithAccuracy_neg (sign : Sign) (m : ℕ) (e : ℤ) (acc : Accuracy) :
    UnpackedFloat.roundWithAccuracy .binary32 (-sign) m e acc =
      (UnpackedFloat.roundWithAccuracy .binary32 sign m e acc).neg := by
  simp only [UnpackedFloat.roundWithAccuracy]
  split <;> rfl

theorem round_neg (sign : Sign) (m : ℕ) (e : ℤ) :
    UnpackedFloat.round .binary32 (-sign) m e = (UnpackedFloat.round .binary32 sign m e).neg :=
  roundWithAccuracy_neg sign _ _ _

theorem div_neg_left (u v : UnpackedFloat) :
    UnpackedFloat.div .binary32 u.neg v = (UnpackedFloat.div .binary32 u v).neg := by
  have hsign : ∀ a b : Sign, -a / b = -(a / b) := by
    intro a b
    cases a <;> cases b <;> rfl
  cases u <;> cases v <;>
    simp only [UnpackedFloat.neg, UnpackedFloat.div, hsign, roundWithAccuracy_neg]

theorem div_neg_right (u v : UnpackedFloat) :
    UnpackedFloat.div .binary32 u v.neg = (UnpackedFloat.div .binary32 u v).neg := by
  have hsign : ∀ a b : Sign, a / -b = -(a / b) := by
    intro a b
    cases a <;> cases b <;> rfl
  cases u <;> cases v <;>
    simp only [UnpackedFloat.neg, UnpackedFloat.div, hsign, roundWithAccuracy_neg]

theorem add_neg_right (u v : UnpackedFloat) :
    UnpackedFloat.add .binary32 u v.neg = UnpackedFloat.sub .binary32 u v := by
  have hsign : ∀ (a : Sign) (n : ℤ), (-a).apply n = -a.apply n := by
    intro a n
    cases a
    · exact (neg_neg n).symm
    · rfl
  cases u <;> cases v <;>
    simp only [UnpackedFloat.neg, UnpackedFloat.add, UnpackedFloat.sub, hsign]
  rfl

/-- The number that an unpacked single denotes, whatever its sign. An infinity denotes `2 ^ 128` or
the negative of it. -/
inductive Denotes : UnpackedFloat → ℚ → Prop
  | zero (sign : Sign) : Denotes (.zero sign) 0
  | finite (sign : Sign) {m : ℕ} {e : ℤ} (h : 0 < m) (canonical : Canonical m e) (le : e ≤ 104) :
      Denotes (.finite sign m e h) (sign.apply m * 2 ^ e)
  | infinity (sign : Sign) : Denotes (.infinity sign) (sign.apply 1 * 2 ^ 128)

theorem Stands.denotes {u : UnpackedFloat} {r : ℚ} (h : Stands u r) : Denotes u r := by
  cases h with
  | zero sign => exact .zero sign
  | finite h canonical le => exact .finite .positive h canonical le
  | infinity => simpa [Sign.apply] using Denotes.infinity .positive

theorem neg_neg_unpacked (u : UnpackedFloat) : u.neg.neg = u := by
  cases u with
  | notANumber => rfl
  | infinity sign => cases sign <;> rfl
  | zero sign => cases sign <;> rfl
  | finite sign => cases sign <;> rfl

theorem cast_apply_neg (sign : Sign) (n : ℤ) : (((-sign).apply n : ℤ) : ℚ) = -(sign.apply n : ℤ) := by
  cases sign
  · change (n : ℚ) = -((-n : ℤ) : ℚ)
    rw [Int.cast_neg, neg_neg]
  · exact Int.cast_neg n

theorem cast_apply (sign : Sign) (n : ℕ) : ((sign.apply n : ℤ) : ℚ) = sign.apply 1 * n := by
  cases sign <;> simp [Sign.apply]

theorem cast_apply_mul (a b : Sign) :
    (((a * b).apply 1 : ℤ) : ℚ) = a.apply 1 * b.apply 1 := by
  cases a <;> cases b <;> norm_num [Sign.apply]

theorem Denotes.neg {u : UnpackedFloat} {r : ℚ} (h : Denotes u r) : Denotes u.neg (-r) := by
  cases h with
  | zero sign =>
      rw [neg_zero]
      exact .zero _
  | finite sign h canonical le =>
      rw [← neg_mul, ← cast_apply_neg]
      exact .finite (-sign) h canonical le
  | infinity sign =>
      rw [← neg_mul, ← cast_apply_neg]
      exact .infinity (-sign)

theorem Denotes.stands {u : UnpackedFloat} {r : ℚ} (h : Denotes u r) (hr : 0 ≤ r) :
    Stands u r := by
  cases h with
  | zero sign => exact .zero sign
  | @finite sign m e h canonical le =>
      cases sign
      · have hpos : (0 : ℚ) < m * 2 ^ e := mul_pos (Nat.cast_pos.mpr h) (two_zpow_pos e)
        simp only [Sign.apply, Int.cast_neg, Int.cast_natCast, neg_mul] at hr
        linarith
      · exact .finite h canonical le
  | infinity sign =>
      cases sign
      · norm_num [Sign.apply] at hr
      · simpa [Sign.apply] using Stands.infinity

theorem Denotes.roundsTo {u : UnpackedFloat} {r : ℚ} (h : Denotes u r) : RoundsTo r r := by
  rcases le_total 0 r with hr | hr
  · exact (h.stands hr).rounds.roundsTo hr
  · have hneg := (h.neg.stands (neg_nonneg.mpr hr)).rounds.roundsTo (neg_nonneg.mpr hr)
    simpa only [neg_neg] using hneg.neg

theorem compare_neg (u v : UnpackedFloat) :
    u.neg.compare v.neg = (u.compare v).map Ordering.swap := by
  cases u with
  | notANumber => rfl
  | infinity sign =>
      cases sign <;> cases v with
      | notANumber => rfl
      | infinity sign' => cases sign' <;> rfl
      | zero => rfl
      | finite => rfl
  | zero sign =>
      cases v with
      | notANumber => rfl
      | infinity sign' => cases sign' <;> rfl
      | zero => rfl
      | finite sign' => cases sign' <;> rfl
  | finite sign m e =>
      cases v with
      | notANumber => rfl
      | infinity sign' => cases sign' <;> cases sign <;> rfl
      | zero => cases sign <;> rfl
      | finite sign' m' e' =>
          cases sign <;> cases sign' <;>
            simp only [UnpackedFloat.neg, UnpackedFloat.compare, Option.map_some]
          · exact congrArg some Ordering.swap_swap.symm
          · rfl
          · rfl

/-- Below zero there is a minus. -/
theorem Denotes.eq_of_neg {u : UnpackedFloat} {r : ℚ} (h : Denotes u r) (hr : r < 0) :
    u = .infinity .negative ∨ ∃ m e h, u = .finite .negative m e h := by
  cases h with
  | zero => exact absurd hr (lt_irrefl 0)
  | @finite sign m e h =>
      cases sign with
      | negative => exact Or.inr ⟨m, e, h, rfl⟩
      | positive =>
          have hpos := two_zpow_pos e
          simp only [Sign.apply, Int.cast_natCast] at hr
          exact absurd hr (not_lt.mpr (by positivity))
  | infinity sign =>
      cases sign with
      | negative => exact Or.inl rfl
      | positive => norm_num [Sign.apply] at hr

theorem Stands.eq_of_pos {u : UnpackedFloat} {r : ℚ} (h : Stands u r) (hr : 0 < r) :
    u = .infinity .positive ∨ ∃ m e h, u = .finite .positive m e h := by
  cases h with
  | zero => exact absurd hr (lt_irrefl 0)
  | finite h => exact Or.inr ⟨_, _, h, rfl⟩
  | infinity => exact Or.inl rfl

theorem Denotes.compare_eq {u v : UnpackedFloat} {r s : ℚ} (h : Denotes u r) (h' : Denotes v s) :
    u.compare v = some (compare r s) := by
  have hnegatives (hr : r ≤ 0) (hs : s ≤ 0) : u.compare v = some (compare r s) := by
    have hneg := (h.neg.stands (neg_nonneg.mpr hr)).compare_eq (h'.neg.stands (neg_nonneg.mpr hs))
    have hboth : compare (-r) (-s) = (compare r s).swap := by
      rcases lt_trichotomy r s with hlt | rfl | hgt
      · rw [compare_lt_iff_lt.mpr hlt, compare_gt_iff_gt.mpr (neg_lt_neg hlt)]
        rfl
      · rw [compare_eq_iff_eq.mpr rfl, compare_eq_iff_eq.mpr rfl]
        rfl
      · rw [compare_gt_iff_gt.mpr hgt, compare_lt_iff_lt.mpr (neg_lt_neg hgt)]
        rfl
    rw [compare_neg, hboth] at hneg
    have htwice := congrArg (Option.map Ordering.swap) hneg
    simpa [Option.map_map, Function.comp_def, Ordering.swap_swap] using htwice
  rcases le_or_gt 0 r with hr | hr
  · rcases le_or_gt 0 s with hs | hs
    · exact (h.stands hr).compare_eq (h'.stands hs)
    · rcases hr.eq_or_lt with rfl | hr
      · exact hnegatives le_rfl hs.le
      · rw [compare_gt_iff_gt.mpr (hs.trans hr)]
        rcases (h.stands hr.le).eq_of_pos hr with rfl | ⟨m, e, hm, rfl⟩ <;>
          rcases h'.eq_of_neg hs with rfl | ⟨m', e', hm', rfl⟩ <;> rfl
  · rcases le_or_gt s 0 with hs | hs
    · exact hnegatives hr.le hs
    · rw [compare_lt_iff_lt.mpr (hr.trans hs)]
      rcases h.eq_of_neg hr with rfl | ⟨m, e, hm, rfl⟩ <;>
        rcases (h'.stands hs.le).eq_of_pos hs with rfl | ⟨m', e', hm', rfl⟩ <;> rfl

/-- Packed, an unpacked single is what the number becomes. -/
def Lands (u : UnpackedFloat) (q : ℚ) : Prop :=
  ∃ t, Denotes (UnpackedFloat.unpack .binary32 (UnpackedFloat.pack .binary32 u)) t ∧ RoundsTo q t

theorem Lands.neg {u : UnpackedFloat} {q : ℚ} (h : Lands u q) : Lands u.neg (-q) := by
  obtain ⟨t, ht, hrounds⟩ := h
  refine ⟨-t, ?_, hrounds.neg⟩
  rw [unpack_pack_neg]
  exact ht.neg

theorem Stands.lands {u : UnpackedFloat} {r : ℚ} (h : Stands u r) : Lands u r :=
  ⟨r, h.repack.denotes, h.rounds.roundsTo h.nonneg⟩

theorem Denotes.lands {u : UnpackedFloat} {r : ℚ} (h : Denotes u r) : Lands u r := by
  rcases le_total 0 r with hr | hr
  · exact (h.stands hr).lands
  · have hneg := (h.neg.stands (neg_nonneg.mpr hr)).lands.neg
    rwa [neg_neg_unpacked, neg_neg] at hneg

theorem lands_roundWithAccuracy (sign : Sign) {m : ℕ} {e : ℤ} {acc : Accuracy} {q : ℚ}
    (hcuts : Cuts q (.ofMantissaAndAccuracy m acc)) (hpos : 0 < q)
    (he : e ≤ lastPlace (q * 2 ^ e)) :
    Lands (UnpackedFloat.roundWithAccuracy .binary32 sign m e acc)
      (sign.apply 1 * (q * 2 ^ e)) := by
  have hplace := two_zpow_pos e
  obtain ⟨t, ht, hrounds⟩ := stands_roundWithAccuracy hcuts hpos he
  have hpositive : Lands (UnpackedFloat.roundWithAccuracy .binary32 .positive m e acc)
      (q * 2 ^ e) := ⟨t, ht.denotes, hrounds.roundsTo (by positivity)⟩
  cases sign with
  | positive => simpa [Sign.apply] using hpositive
  | negative =>
      have hneg : Lands (UnpackedFloat.roundWithAccuracy .binary32 .negative m e acc)
          (-(q * 2 ^ e)) := roundWithAccuracy_neg .positive m e acc ▸ hpositive.neg
      simpa [Sign.apply] using hneg

theorem lands_normalize (n e : ℤ) (sign : Sign) :
    Lands (UnpackedFloat.normalize .binary32 n e sign) (n * 2 ^ e) := by
  have hround : ∀ k : ℕ, 0 < k → Lands (UnpackedFloat.round .binary32 .positive k e) (k * 2 ^ e) := by
    intro k hk
    obtain ⟨t, ht, hrounds⟩ := stands_round hk e
    exact ⟨t, ht.denotes, hrounds.roundsTo (by positivity)⟩
  rw [UnpackedFloat.normalize]
  rcases lt_trichotomy n 0 with hn | rfl | hn
  · obtain ⟨k, rfl⟩ : ∃ k : ℕ, n = -k := ⟨n.natAbs, by omega⟩
    have hneg : Lands (UnpackedFloat.round .binary32 .negative k e) (-(k * 2 ^ e)) :=
      round_neg .positive k e ▸ (hround k (by omega)).neg
    rw [compare_lt_iff_lt.mpr hn]
    simpa using hneg
  · rw [compare_eq_iff_eq.mpr rfl, Int.cast_zero, zero_mul]
    exact (Denotes.zero sign).lands
  · obtain ⟨k, rfl⟩ : ∃ k : ℕ, n = k := ⟨n.toNat, by omega⟩
    rw [compare_gt_iff_gt.mpr hn]
    simpa using hround k (by omega)

/-- Two mantissas under one exponent, with their signs. -/
theorem apply_shift (sign : Sign) (m : ℕ) {e f : ℤ} (hle : f ≤ e) :
    ((sign.apply (m <<< (e - f).toNat : ℕ) : ℤ) : ℚ) * 2 ^ f = sign.apply m * 2 ^ e := by
  have hpow : (2 : ℚ) ^ e = 2 ^ (e - f).toNat * 2 ^ f := two_zpow_of_eq (by omega)
  rw [hpow, Nat.shiftLeft_eq]
  cases sign <;> simp only [Sign.apply] <;> push_cast <;> ring

theorem not_abs_infinity_lt (sign : Sign) : ¬|((sign.apply 1 : ℤ) : ℚ) * 2 ^ 128| < 2 ^ 128 := by
  cases sign <;> norm_num [Sign.apply]

theorem lands_add {u v : UnpackedFloat} {r s : ℚ} (hu : Denotes u r) (hv : Denotes v s)
    (hr : |r| < 2 ^ 128) (hs : |s| < 2 ^ 128) : Lands (UnpackedFloat.add .binary32 u v) (r + s) := by
  cases hu with
  | infinity sign => exact absurd hr (not_abs_infinity_lt sign)
  | zero sign =>
      rw [zero_add]
      cases hv with
      | zero sign' => cases sign <;> cases sign' <;> exact (Denotes.zero _).lands
      | finite sign' h canonical le => exact (Denotes.finite sign' h canonical le).lands
      | infinity sign' => exact absurd hs (not_abs_infinity_lt sign')
  | @finite sign m e h canonical le =>
      cases hv with
      | zero sign' =>
          rw [add_zero]
          exact (Denotes.finite sign h canonical le).lands
      | @finite sign' m' e' h' canonical' le' =>
          have hsum := lands_normalize
            (sign.apply (m <<< (e - min e e').toNat : ℕ) + sign'.apply (m' <<< (e' - min e e').toNat : ℕ))
            (min e e') .positive
          rw [Int.cast_add, add_mul, apply_shift sign m (min_le_left e e'),
            apply_shift sign' m' (min_le_right e e')] at hsum
          exact hsum
      | infinity sign' => exact absurd hs (not_abs_infinity_lt sign')

theorem lands_sub {u v : UnpackedFloat} {r s : ℚ} (hu : Denotes u r) (hv : Denotes v s)
    (hr : |r| < 2 ^ 128) (hs : |s| < 2 ^ 128) : Lands (UnpackedFloat.sub .binary32 u v) (r - s) := by
  rw [← add_neg_right, sub_eq_add_neg]
  exact lands_add hu hv.neg hr (by rwa [abs_neg])

theorem Canonical.le_lastPlace_mul {m m' : ℕ} {e e' : ℤ} (h : Canonical m e) (h' : Canonical m' e')
    (hm : 0 < m) (hm' : 0 < m') : e + e' ≤ lastPlace ((m * m' : ℕ) * 2 ^ (e + e')) := by
  have hpos : 0 < m * m' := Nat.mul_pos hm hm'
  have hfull : 2 ^ 23 ≤ m * m' → e + e' ≤ lastPlace ((m * m' : ℕ) * 2 ^ (e + e')) := by
    intro hbits
    have hlog : 23 ≤ (m * m').log2 := (Nat.le_log2 hpos.ne').mpr hbits
    rw [lastPlace_natCast_mul hpos]
    omega
  rcases h.full with hm23 | he
  · exact hfull (hm23.trans (Nat.le_mul_of_pos_right m hm'))
  rcases h'.full with hm23 | he'
  · exact hfull (hm23.trans (Nat.le_mul_of_pos_left m' hm))
  · have hleast := neg_le_lastPlace ((m * m' : ℕ) * 2 ^ (e + e'))
    omega

theorem lands_mul {u v : UnpackedFloat} {r s : ℚ} (hu : Denotes u r) (hv : Denotes v s)
    (hr : |r| < 2 ^ 128) (hs : |s| < 2 ^ 128) : Lands (UnpackedFloat.mul .binary32 u v) (r * s) := by
  cases hu with
  | infinity sign => exact absurd hr (not_abs_infinity_lt sign)
  | zero sign =>
      rw [zero_mul]
      cases hv with
      | zero => exact (Denotes.zero _).lands
      | finite => exact (Denotes.zero _).lands
      | infinity sign' => exact absurd hs (not_abs_infinity_lt sign')
  | @finite sign m e h canonical le =>
      cases hv with
      | zero =>
          rw [mul_zero]
          exact (Denotes.zero _).lands
      | @finite sign' m' e' h' canonical' le' =>
          have hpos : (0 : ℚ) < (m * m' : ℕ) := by positivity
          have hproduct := lands_roundWithAccuracy (sign * sign') (cuts_natCast (m * m')) hpos
            (canonical.le_lastPlace_mul canonical' h h')
          have hvalue : (((sign * sign').apply 1 : ℤ) : ℚ) * ((m * m' : ℕ) * 2 ^ (e + e')) =
              sign.apply m * 2 ^ e * (sign'.apply m' * 2 ^ e') := by
            rw [two_zpow_add, cast_apply_mul, cast_apply sign m, cast_apply sign' m']
            push_cast
            ring
          rwa [hvalue] at hproduct
      | infinity sign' => exact absurd hs (not_abs_infinity_lt sign')

theorem lands_div {u v : UnpackedFloat} {r s : ℚ} (hu : Denotes u r) (hv : Denotes v s)
    (hr : |r| < 2 ^ 128) (hs : |s| < 2 ^ 128) (hne : s ≠ 0) :
    Lands (UnpackedFloat.div .binary32 u v) (r / s) := by
  cases hv with
  | infinity sign' => exact absurd hs (not_abs_infinity_lt sign')
  | zero => exact absurd rfl hne
  | @finite sign' m' e' h' canonical' le' =>
      cases hu with
      | infinity sign => exact absurd hr (not_abs_infinity_lt sign)
      | zero =>
          rw [zero_div]
          exact (Denotes.zero _).lands
      | @finite sign m e h canonical le =>
          obtain ⟨n, f, acc, hdiv, q, hcuts, hq, hf, hvalue⟩ := div_finite h h' e e'
          have hpositive : Lands (UnpackedFloat.div .binary32 (.finite .positive m e h)
              (.finite .positive m' e' h')) (m * 2 ^ e / (m' * 2 ^ e')) := by
            have hlands := lands_roundWithAccuracy .positive hcuts hq hf
            rw [hdiv, ← hvalue]
            simpa [Sign.apply] using hlands
          cases sign <;> cases sign'
          · have hboth : UnpackedFloat.div .binary32 (.finite .negative m e h)
                (.finite .negative m' e' h') = UnpackedFloat.div .binary32
                (.finite .positive m e h) (.finite .positive m' e' h') := rfl
            rw [hboth]
            simpa [Sign.apply] using hpositive
          · have hneg : Lands (UnpackedFloat.div .binary32 (.finite .negative m e h)
                (.finite .positive m' e' h')) (-(m * 2 ^ e / (m' * 2 ^ e'))) :=
              div_neg_left (.finite .positive m e h) (.finite .positive m' e' h') ▸ hpositive.neg
            simpa [Sign.apply, neg_div] using hneg
          · have hneg : Lands (UnpackedFloat.div .binary32 (.finite .positive m e h)
                (.finite .negative m' e' h')) (-(m * 2 ^ e / (m' * 2 ^ e'))) :=
              div_neg_right (.finite .positive m e h) (.finite .positive m' e' h') ▸ hpositive.neg
            simpa [Sign.apply, div_neg] using hneg
          · simpa [Sign.apply] using hpositive

/-! ### Singles -/

theorem Stands.eq {u : UnpackedFloat} {r s : ℚ} (h : Stands u r) (h' : Stands u s) : r = s := by
  cases h <;> cases h' <;> rfl

theorem Denotes.eq {u : UnpackedFloat} {r s : ℚ} (h : Denotes u r) (h' : Denotes u s) : r = s := by
  cases h <;> cases h' <;> rfl

theorem Denotes.abs_le {u : UnpackedFloat} {r : ℚ} (h : Denotes u r) : |r| ≤ 2 ^ 128 := by
  rcases le_total 0 r with hr | hr
  · rw [abs_of_nonneg hr]
    exact (h.stands hr).le_max
  · rw [abs_of_nonpos hr]
    exact (h.neg.stands (neg_nonneg.mpr hr)).le_max

theorem Denotes.isFinite_iff {u : UnpackedFloat} {r : ℚ} (h : Denotes u r) :
    u.isFinite = true ↔ |r| < 2 ^ 128 := by
  cases h with
  | zero sign => simp [UnpackedFloat.isFinite]
  | finite sign h canonical le =>
      have hlt := Stands.lt_of_finite canonical le
      refine iff_of_true rfl ?_
      cases sign <;> simpa [Sign.apply, abs_mul] using hlt
  | infinity sign => exact iff_of_false (by simp [UnpackedFloat.isFinite]) (not_abs_infinity_lt sign)

namespace Single

/-- The single stands for the number, whatever its sign. An infinity stands for `2 ^ 128` or the
negative of it, and only what is not a number stands for none. -/
def Means (x : Single) (r : ℚ) : Prop := Denotes x.toModel.unpack r

variable {x y : Single} {r s : ℚ}

theorem Amounts.means (h : x.Amounts r) : x.Means r := Stands.denotes h

namespace Means

theorem amounts (h : x.Means r) (hr : 0 ≤ r) : x.Amounts r := Denotes.stands h hr

theorem eq (h : x.Means r) (h' : x.Means s) : r = s := Denotes.eq h h'

theorem le_iff (h : x.Means r) (h' : y.Means s) : x ≤ y ↔ r ≤ s := by
  have hle : x ≤ y ↔ (x.toModel.unpack.compare y.toModel.unpack).any (·.isLE) = true :=
    decide_eq_true_iff
  rw [hle, Denotes.compare_eq h h', Option.any_some, ← Ordering.ne_gt_iff_isLE]
  exact compare_le_iff_le

theorem beq_iff (h : x.Means r) (h' : y.Means s) : (x == y) = true ↔ r = s := by
  have hbeq : (x == y) = x.toModel.unpack.beq y.toModel.unpack := rfl
  rw [hbeq, UnpackedFloat.beq, Denotes.compare_eq h h', ← compare_eq_iff_eq]
  simp

theorem isFinite_iff (h : x.Means r) : x.isFinite = true ↔ |r| < 2 ^ 128 := Denotes.isFinite_iff h

theorem neg (h : x.Means r) : (-x).Means (-r) := by
  obtain ⟨t, ht, hrounds⟩ := (Denotes.neg h).lands
  obtain rfl : t = -r := hrounds.eq (Denotes.neg h).roundsTo
  exact ht

theorem add (h : x.Means r) (h' : y.Means s) (hr : |r| < 2 ^ 128) (hs : |s| < 2 ^ 128) :
    ∃ t, (x + y).Means t ∧ RoundsTo (r + s) t := lands_add h h' hr hs

theorem sub (h : x.Means r) (h' : y.Means s) (hr : |r| < 2 ^ 128) (hs : |s| < 2 ^ 128) :
    ∃ t, (x - y).Means t ∧ RoundsTo (r - s) t := lands_sub h h' hr hs

theorem mul (h : x.Means r) (h' : y.Means s) (hr : |r| < 2 ^ 128) (hs : |s| < 2 ^ 128) :
    ∃ t, (x * y).Means t ∧ RoundsTo (r * s) t := lands_mul h h' hr hs

theorem div (h : x.Means r) (h' : y.Means s) (hr : |r| < 2 ^ 128) (hs : |s| < 2 ^ 128)
    (hne : s ≠ 0) : ∃ t, (x / y).Means t ∧ RoundsTo (r / s) t := lands_div h h' hr hs hne

end Means

theorem exists_means_of_not_isNaN (h : x.isNaN = false) : ∃ r, x.Means r := by
  have hform : ∀ sign m e h, x.toModel.unpack = .finite sign m e h → Canonical m e ∧ e ≤ 104 :=
    fun sign m e h hu => canonical_of_unpack hu
  change ∃ r, Denotes x.toModel.unpack r
  have hnumber : x.toModel.unpack.isNaN = false := h
  generalize x.toModel.unpack = u at hform hnumber
  cases u with
  | notANumber => cases hnumber
  | infinity sign => exact ⟨_, .infinity sign⟩
  | zero sign => exact ⟨_, .zero sign⟩
  | finite sign m e hm =>
      obtain ⟨hcanonical, hhigh⟩ := hform sign m e hm rfl
      exact ⟨_, .finite sign hm hcanonical hhigh⟩

theorem exists_means (h : x.isFinite = true) : ∃ r, x.Means r ∧ |r| < 2 ^ 128 := by
  have hnumber : x.isNaN = false := by
    have hfinite : x.toModel.unpack.isFinite = true := h
    change x.toModel.unpack.isNaN = false
    generalize x.toModel.unpack = u at hfinite
    cases u with
    | notANumber => cases hfinite
    | _ => rfl
  obtain ⟨r, hr⟩ := exists_means_of_not_isNaN hnumber
  exact ⟨r, hr, hr.isFinite_iff.mp h⟩

/-- What can be compared is a number on both sides. -/
theorem exists_means_of_le (h : x ≤ y) : ∃ r s, x.Means r ∧ y.Means s ∧ r ≤ s := by
  have hle : (x.toModel.unpack.compare y.toModel.unpack).any (·.isLE) = true :=
    decide_eq_true_iff.mp h
  have hx : x.isNaN = false := by
    change x.toModel.unpack.isNaN = false
    cases hunpack : x.toModel.unpack with
    | notANumber =>
        rw [hunpack] at hle
        cases hle
    | _ => rfl
  have hy : y.isNaN = false := by
    change y.toModel.unpack.isNaN = false
    cases hunpack : y.toModel.unpack with
    | notANumber =>
        rw [hunpack] at hle
        cases hunpack' : x.toModel.unpack with
        | infinity sign => cases sign <;> simp [hunpack', UnpackedFloat.compare] at hle
        | _ => simp [hunpack', UnpackedFloat.compare] at hle
    | _ => rfl
  obtain ⟨r, hr⟩ := exists_means_of_not_isNaN hx
  obtain ⟨s, hs⟩ := exists_means_of_not_isNaN hy
  exact ⟨r, s, hr, hs, (hr.le_iff hs).mp h⟩

theorem not_isNaN_of_beq (h : (x == y) = true) : x.isNaN = false := by
  change x.toModel.unpack.beq y.toModel.unpack = true at h
  change x.toModel.unpack.isNaN = false
  generalize x.toModel.unpack = u at h
  cases u with
  | notANumber => cases h
  | _ => rfl

theorem le_trans {x y z : Single} (hxy : x ≤ y) (hyz : y ≤ z) : x ≤ z := by
  obtain ⟨r, s, hr, hs, hrs⟩ := exists_means_of_le hxy
  obtain ⟨s', t, hs', ht, hst⟩ := exists_means_of_le hyz
  rw [← hs.eq hs'] at hst
  exact (hr.le_iff ht).mpr (hrs.trans hst)

end Single

/-! ### Without a minus -/

theorem unpack_pack_notANumber :
    UnpackedFloat.unpack .binary32 (UnpackedFloat.pack .binary32 .notANumber) = .notANumber :=
  rfl

/-- An unpacked single is not negative, or not a number. -/
def Unsigned (u : UnpackedFloat) : Prop := u = .notANumber ∨ ∃ r, Stands u r

theorem Stands.abs_lt_of_finite {m : ℕ} {e : ℤ} (h : Canonical m e) (he : e ≤ 104) :
    |(m : ℚ) * 2 ^ e| < 2 ^ 128 := by
  rw [abs_of_nonneg (by positivity)]
  exact Stands.lt_of_finite h he

theorem Stands.unsigned {u : UnpackedFloat} {r : ℚ} (h : Stands u r) :
    Unsigned (UnpackedFloat.unpack .binary32 (UnpackedFloat.pack .binary32 u)) :=
  Or.inr ⟨r, h.repack⟩

theorem Lands.unsigned {u : UnpackedFloat} {q : ℚ} (h : Lands u q) (hq : 0 ≤ q) :
    Unsigned (UnpackedFloat.unpack .binary32 (UnpackedFloat.pack .binary32 u)) := by
  obtain ⟨t, ht, hrounds⟩ := h
  exact Or.inr ⟨t, ht.stands (hrounds.rounds hq).nonneg⟩

theorem Unsigned.mul {u v : UnpackedFloat} (hu : Unsigned u) (hv : Unsigned v) :
    Unsigned (UnpackedFloat.unpack .binary32 (UnpackedFloat.pack .binary32
      (UnpackedFloat.mul .binary32 u v))) := by
  rcases hu with rfl | ⟨r, hu⟩
  · exact Or.inl unpack_pack_notANumber
  rcases hv with rfl | ⟨s, hv⟩
  · cases u <;> exact Or.inl unpack_pack_notANumber
  cases hu with
  | zero => cases hv with
    | zero => exact (Stands.zero _).unsigned
    | finite => exact (Stands.zero _).unsigned
    | infinity => exact Or.inl unpack_pack_notANumber
  | finite h canonical le => cases hv with
    | zero => exact (Stands.zero _).unsigned
    | finite h' canonical' le' =>
        have hproduct := lands_mul (Stands.finite h canonical le).denotes
          (Stands.finite h' canonical' le').denotes (Stands.abs_lt_of_finite canonical le)
          (Stands.abs_lt_of_finite canonical' le')
        exact hproduct.unsigned (by positivity)
    | infinity => exact Stands.infinity.unsigned
  | infinity => cases hv with
    | zero => exact Or.inl unpack_pack_notANumber
    | finite => exact Stands.infinity.unsigned
    | infinity => exact Stands.infinity.unsigned

theorem Unsigned.div {u v : UnpackedFloat} {s : ℚ} (hu : Unsigned u) (hv : Stands v s)
    (hs : 0 < s) : Unsigned (UnpackedFloat.unpack .binary32 (UnpackedFloat.pack .binary32
      (UnpackedFloat.div .binary32 u v))) := by
  rcases hu with rfl | ⟨r, hu⟩
  · exact Or.inl unpack_pack_notANumber
  cases hv with
  | zero => exact absurd hs (lt_irrefl 0)
  | finite h' canonical' le' => cases hu with
    | zero => exact (Stands.zero _).unsigned
    | finite h canonical le =>
        have hquotient := lands_div (Stands.finite h canonical le).denotes
          (Stands.finite h' canonical' le').denotes (Stands.abs_lt_of_finite canonical le)
          (Stands.abs_lt_of_finite canonical' le') hs.ne'
        exact hquotient.unsigned (by positivity)
    | infinity => exact Stands.infinity.unsigned
  | infinity => cases hu with
    | zero => exact (Stands.zero _).unsigned
    | finite => exact (Stands.zero _).unsigned
    | infinity => exact Or.inl unpack_pack_notANumber

namespace Single

variable {x y : Single} {r s : ℚ}

/-- The single is not negative, or not a number. -/
def Unsigned (x : Single) : Prop := Choreo.Unsigned x.toModel.unpack

theorem Amounts.unsigned (h : x.Amounts r) : x.Unsigned := Or.inr ⟨r, h⟩

theorem Unsigned.mul (h : x.Unsigned) (h' : y.Unsigned) : (x * y).Unsigned :=
  Choreo.Unsigned.mul h h'

theorem Unsigned.div (h : x.Unsigned) (h' : y.Amounts s) (hs : 0 < s) : (x / y).Unsigned :=
  Choreo.Unsigned.div h h' hs

theorem isNaN_iff : x.isNaN = true ↔ x.toModel.unpack = .notANumber := by
  change x.toModel.unpack.isNaN = true ↔ _
  cases x.toModel.unpack <;> simp [UnpackedFloat.isNaN]

end Single

end Choreo
