import Choreo.Proofs.Number.Exactness

/-!
# Counts as singles

A single has room for 24 bits of mantissa, so a count below `2 ^ 24` becomes a single without
rounding. What has been cut down to such a count and is then made a whole number is no greater than
the count, whatever it was before: too large, infinite, negative or not a number.
-/

namespace Choreo.Single

open Float.Model (Format UnpackedFloat)
open Float.Model.UnpackedFloat (ExtendedMantissa Sign)

/-! ### Counts take up the whole mantissa -/

/-- A count is moved up until it fills the mantissa, which loses nothing. -/
theorem round_count {k : Nat} (hpos : 0 < k) (hk : k < 2 ^ 24) :
    ∃ s : Nat, s ≤ 23 ∧ (k * 2 ^ s).log2 = 23 ∧ ∀ h,
      UnpackedFloat.round .binary32 .positive k 0 = .finite .positive (k * 2 ^ s) (-(s : Int)) h := by
  have hle : k.log2 ≤ 23 := Nat.lt_succ_iff.mp ((Nat.log2_lt hpos.ne').mpr hk)
  obtain ⟨s, hs⟩ := Nat.exists_eq_add_of_le hle
  have hlog : (k * 2 ^ s).log2 = 23 := by rw [Exact.log2_shift hpos, ← hs]
  have hsettled : Exact.Settled .binary32 (k * 2 ^ s) (0 - s) :=
    Exact.settled_single hlog.le (by omega) (.inl hlog)
  refine ⟨s, by omega, hlog, fun h => ?_⟩
  rw [Exact.round_of_ge .positive s h hsettled]
  simp

theorem mantissa_lt_of_unpack {bits : BitVec Format.binary32.numBits} {sign : Sign} {m : Nat}
    {e : Int} {hpos : 0 < m} (h : UnpackedFloat.unpack .binary32 bits = .finite sign m e hpos) :
    m < 2 ^ 24 :=
  (Nat.log2_lt hpos.ne').mp (Nat.lt_succ_of_le (Exact.finite_of_unpack_single h).1)

theorem unpack_ofCount {k : Nat} (hpos : 0 < k) (hk : k < 2 ^ 24) :
    ∃ s : Nat, (k * 2 ^ s).log2 = 23 ∧ ∃ h,
      (ofCount k).toModel.unpack = .finite .positive (k * 2 ^ s) (-(s : Int)) h := by
  obtain ⟨s, hs, hlog, hround⟩ := round_count hpos hk
  have h : 0 < k * 2 ^ s := by positivity
  have hexact : (Exact.finite false k 0).round .binary32 =
      .finite .positive (k * 2 ^ s) (-(s : Int)) h := by
    rw [Exact.round, if_neg hpos.ne']
    exact hround h
  have hbias : (Format.binary32.exponentBias : Int) = 127 := by decide
  refine ⟨s, hlog, h, ?_⟩
  rw [ofCount, ofExact, hexact]
  refine Exact.unpack_pack_normal (by rw [hlog]; rfl) ?_ ?_
  · rw [hbias]
    omega
  · rw [hbias]
    norm_num
    omega

/-! ### Cutting to a whole number -/

theorem shift_mantissa (em : ExtendedMantissa) (n : Nat) :
    (em >>> n).mantissa = em.mantissa / 2 ^ n := by
  induction n with
  | zero => simp [HShiftRight.hShiftRight, Nat.repeat]
  | succ n ih =>
      change (em >>> n).mantissa / 2 = _
      rw [ih, Nat.div_div_eq_div_mul, Nat.pow_succ]

theorem roundToInt_positive (m n : Nat) :
    UnpackedFloat.roundToInt .positive m (-n) = (m / 2 ^ n : Nat) := by
  have hn : (-(n : Int)).toNat = 0 := by omega
  simp [UnpackedFloat.roundToInt, UnpackedFloat.decreaseExponent, UnpackedFloat.shiftToExponent, hn,
    Sign.apply, shift_mantissa, ExtendedMantissa.ofMantissaAndAccuracy]

theorem toUInt32_toNat_le {x : Single} {n : Nat}
    (h : x.toModel.unpack.toInt 0 (UInt32.size - 1) ≤ n) : x.toUInt32.toNat ≤ n := by
  change (UInt32.ofNatClamp (x.toModel.unpack.toInt 0 (UInt32.size - 1)).toNat).toNat ≤ n
  rw [UInt32.ofNatClamp]
  split <;> rw [UInt32.toNat_ofNatLT] <;> omega

/-- Two positive reals of one format stand in the order of their exponents, and then of their
mantissas. -/
theorem not_lt_positive {m m' : Nat} {e e' : Int} {h : 0 < m} {h' : 0 < m'}
    (hle : UnpackedFloat.lt (.finite .positive m e h) (.finite .positive m' e' h') = false) :
    e' < e ∨ e' = e ∧ m' ≤ m := by
  have hcompare : (compare e e').then (compare m m') ≠ .lt := by
    simpa [UnpackedFloat.lt, UnpackedFloat.compare] using hle
  rw [Ne, Ordering.then_eq_lt, compare_lt_iff_lt, compare_lt_iff_lt, compare_eq_iff_eq] at hcompare
  omega

section Cutting

variable {k s : Nat} {h : 0 < k * 2 ^ s} (hlog : (k * 2 ^ s).log2 = 23)
include hlog

theorem div_le_of_not_lt {m n : Nat} {hpos : 0 < m} (hm : m < 2 ^ 24)
    (hle : UnpackedFloat.lt (.finite .positive (k * 2 ^ s) (-(s : Int)) h)
      (.finite .positive m (-(n : Int)) hpos) = false) : m / 2 ^ n ≤ k := by
  obtain hbelow | ⟨hsame, hm⟩ := not_lt_positive hle
  · have hfull : 2 ^ 23 ≤ k * 2 ^ s := ((Nat.log2_eq_iff h.ne').mp hlog).1
    have hpow : 2 ^ (s + 1) ≤ 2 ^ n := Nat.pow_le_pow_right (by decide) (by omega)
    have hlt : m < k * 2 ^ n :=
      calc m < 2 ^ 23 * 2 := hm
        _ ≤ k * 2 ^ s * 2 := Nat.mul_le_mul_right 2 hfull
        _ = k * 2 ^ (s + 1) := by rw [Nat.pow_succ, Nat.mul_assoc]
        _ ≤ k * 2 ^ n := Nat.mul_le_mul_left k hpow
    exact (Nat.div_lt_of_lt_mul (by rwa [Nat.mul_comm] at hlt)).le
  · obtain rfl : n = s := by omega
    exact Nat.div_le_of_le_mul (by rwa [Nat.mul_comm])

theorem toInt_le_of_not_lt {u : UnpackedFloat}
    (hmantissa : ∀ sign m e hpos, u = .finite sign m e hpos → m < 2 ^ 24) (infinity : Int)
    (hle : UnpackedFloat.lt (.finite .positive (k * 2 ^ s) (-(s : Int)) h) u = false) :
    u.toInt 0 infinity ≤ k := by
  cases u with
  | notANumber => simp [UnpackedFloat.toInt]
  | infinity sign =>
      cases sign with
      | negative => simp [UnpackedFloat.toInt]
      | positive => simp [UnpackedFloat.lt, UnpackedFloat.compare] at hle
  | zero sign => simp [UnpackedFloat.toInt]
  | finite sign m e hpos =>
      have hm := hmantissa sign m e hpos rfl
      cases sign with
      | negative =>
          have hint : UnpackedFloat.toInt 0 infinity (.finite .negative m e hpos) ≤ 0 := by
            simp [UnpackedFloat.toInt, UnpackedFloat.roundToInt, Sign.apply]
          omega
      | positive =>
          have he : e ≤ -(s : Int) := by
            have horder := not_lt_positive hle
            omega
          obtain ⟨n, rfl⟩ : ∃ n : Nat, e = -(n : Int) := ⟨(-e).toNat, by omega⟩
          rw [UnpackedFloat.toInt, roundToInt_positive, Nat.cast_le]
          exact div_le_of_not_lt hlog hm hle

end Cutting

theorem lt_iff (x y : Single) : x < y ↔ x.toModel.unpack.lt y.toModel.unpack = true :=
  decide_eq_true_iff

/-- A real that is cut down to a count stays at or below it when it becomes a whole number. -/
theorem lesser_ofCount_toUInt32_le {k : Nat} (hpos : 0 < k) (hk : k < 2 ^ 24) (x : Single) :
    (x.lesser (ofCount k)).toUInt32.toNat ≤ k := by
  obtain ⟨s, hlog, h, hcount⟩ := unpack_ofCount hpos hk
  have hcut : ∀ y : Single, ¬ofCount k < y → y.toUInt32.toNat ≤ k := by
    intro y hy
    rw [lt_iff, hcount, Bool.not_eq_true] at hy
    exact toUInt32_toNat_le
      (toInt_le_of_not_lt hlog (fun _ _ _ _ hm => mantissa_lt_of_unpack hm) _ hy)
  have hself : ¬ofCount k < ofCount k := by
    rw [lt_iff, hcount]
    simp [UnpackedFloat.lt, UnpackedFloat.compare]
  rw [lesser]
  split
  · exact hcut _ hself
  · split
    · exact hcut _ hself
    · next hle => exact hcut x hle

end Choreo.Single
