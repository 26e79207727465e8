import Choreo.Number.Binary
import Mathlib

/-!
# Rounding what needs no rounding

Every format fixes the exponent of a number by the place of its leading bit. A number that a format
has room for is rounded to itself, only with that exponent, whichever exponent it came with; and
packing it into bits loses nothing. A double has room for every single, so widening a single and
narrowing it again gives it back.
-/

namespace Choreo

namespace Exact

open Float.Model (Format UnpackedFloat totalExponent)
open Float.Model.UnpackedFloat (ExtendedMantissa Sign)

/-! ### Shifting -/

/-- What is shifted out is all zeros, so the residual bits stay clear. -/
theorem shift_exact (m n : Nat) :
    (⟨m * 2 ^ n, false, false⟩ : ExtendedMantissa) >>> n = ⟨m, false, false⟩ := by
  induction n generalizing m with
  | zero => simp [HShiftRight.hShiftRight, Nat.repeat]
  | succ n ih =>
      change ((⟨m * 2 ^ (n + 1), false, false⟩ : ExtendedMantissa) >>> n).shiftRightOne = _
      rw [Nat.pow_succ', ← Nat.mul_assoc, ih]
      simp [ExtendedMantissa.shiftRightOne]

theorem log2_shift {m : Nat} (hm : 0 < m) (n : Nat) : (m * 2 ^ n).log2 = m.log2 + n := by
  rw [Nat.log2_eq_iff (by positivity), Nat.add_right_comm, Nat.pow_add, Nat.pow_add]
  exact ⟨Nat.mul_le_mul_right _ (Nat.log2_self_le hm.ne'),
    Nat.mul_lt_mul_of_pos_right Nat.lt_log2_self (by positivity)⟩

theorem totalExponent_shift {m : Nat} (hm : 0 < m) (n : Nat) (e : Int) :
    totalExponent (m * 2 ^ n) e = totalExponent m (e + n) := by
  rw [totalExponent, totalExponent, log2_shift hm]
  omega

/-! ### Rounding -/

/-- The format keeps the number with this mantissa and this exponent. -/
def Settled (spec : Format) (m : Nat) (e : Int) : Prop :=
  spec.targetExponent (totalExponent m e) = e

variable {spec : Format} {m : Nat} {e : Int}

theorem shiftToTargetExponent_settled (hm : 0 < m) (n : Nat) (h : Settled spec m (e + n)) :
    UnpackedFloat.shiftToTargetExponent spec (m * 2 ^ n) e .exact = (⟨m, false, false⟩, e + n) := by
  have hshift : (e + n - e).toNat = n := by omega
  rw [UnpackedFloat.shiftToTargetExponent, totalExponent_shift hm, h,
    UnpackedFloat.shiftToExponent, hshift, ExtendedMantissa.ofMantissaAndAccuracy, shift_exact]

theorem roundWithAccuracy_settled (sign : Sign) (hm : 0 < m) (n : Nat)
    (h : Settled spec m (e + n)) :
    UnpackedFloat.roundWithAccuracy spec sign (m * 2 ^ n) e .exact = .finite sign m (e + n) hm := by
  have hagain : UnpackedFloat.shiftToTargetExponent spec m (e + n) .exact =
      (⟨m, false, false⟩, e + n) := by
    have h' : Settled spec m (e + n + (0 : Nat)) := by simpa using h
    simpa using shiftToTargetExponent_settled hm 0 h'
  have hrounded : (⟨m, false, false⟩ : ExtendedMantissa).roundedMantissa = m := rfl
  simp [UnpackedFloat.roundWithAccuracy, shiftToTargetExponent_settled hm n h, hrounded, hagain,
    hm.ne']

/-- A number whose mantissa has trailing zeros to spare. -/
theorem round_of_le (sign : Sign) (hm : 0 < m) (n : Nat) (h : Settled spec m (e + n)) :
    UnpackedFloat.round spec sign (m * 2 ^ n) e = .finite sign m (e + n) hm := by
  have hnothing : (e - (e + n)).toNat = 0 := by omega
  rw [UnpackedFloat.round, totalExponent_shift hm, h]
  simp only [UnpackedFloat.decreaseExponent, hnothing, Nat.shiftLeft_zero, Nat.cast_zero, sub_zero]
  exact roundWithAccuracy_settled sign hm n h

/-- A number whose mantissa has to be filled up with zeros. -/
theorem round_of_ge (sign : Sign) (n : Nat) (hm : 0 < m * 2 ^ n)
    (h : Settled spec (m * 2 ^ n) (e - n)) :
    UnpackedFloat.round spec sign m e = .finite sign (m * 2 ^ n) (e - n) hm := by
  have hshift : (e - (e - n)).toNat = n := by omega
  have htarget : spec.targetExponent (totalExponent m e) = e - n := by
    have htotal := totalExponent_shift (Nat.pos_of_mul_pos_right hm) n (e - n)
    rw [Int.sub_add_cancel] at htotal
    rw [← htotal, h]
  have h' : Settled spec (m * 2 ^ n) (e - n + (0 : Nat)) := by simpa using h
  rw [UnpackedFloat.round, htarget]
  simp only [UnpackedFloat.decreaseExponent, hshift, Nat.shiftLeft_eq]
  simpa using roundWithAccuracy_settled sign hm 0 h'

/-! ### Packing and taking apart -/

theorem append_ofNat {width : Nat} (hm : m.log2 = width) (hpos : 0 < m) :
    (1#1 ++ BitVec.ofNat width m).toNat = m := by
  obtain ⟨hlow, hhigh⟩ := (Nat.log2_eq_iff hpos.ne').mp hm
  have hone : 2 ^ width * 1 + m % 2 ^ width = m := by
    have hdiv : m / 2 ^ width = 1 := Nat.div_eq_of_lt_le (by omega) (by omega)
    have hmod := Nat.div_add_mod m (2 ^ width)
    rwa [hdiv] at hmod
  rw [BitVec.toNat_append, BitVec.toNat_ofNat, BitVec.toNat_ofNat, Nat.shiftLeft_eq,
    Nat.mul_comm]
  rw [← Nat.two_pow_add_eq_or_of_lt (Nat.mod_lt m (by positivity))]
  simpa using hone

theorem log2_append {width : Nat} (v : BitVec width) : (1#1 ++ v).toNat.log2 = width := by
  have happend : (1#1 ++ v).toNat = 2 ^ width + v.toNat := by
    rw [BitVec.toNat_append, Nat.shiftLeft_eq, Nat.mul_comm, ← Nat.two_pow_add_eq_or_of_lt v.isLt]
    simp
  rw [happend, Nat.log2_eq_iff (by positivity)]
  omega

theorem unpack_pack_normal {sign : Sign} {hpos : 0 < m}
    (hm : m.log2 + 1 = spec.mantissaBits)
    (hlow : 0 < e + spec.exponentBias + spec.mantissaBitsWithoutImplicit)
    (hhigh : e + spec.exponentBias + spec.mantissaBitsWithoutImplicit + 1 < 2 ^ spec.exponentBits) :
    UnpackedFloat.unpack spec (UnpackedFloat.pack spec (.finite sign m e hpos)) =
      .finite sign m e hpos := by
  obtain ⟨b, hb⟩ : ∃ b : Nat, (e + spec.exponentBias + spec.mantissaBitsWithoutImplicit).toNat = b :=
    ⟨_, rfl⟩
  have hbound : b + 1 < 2 ^ spec.exponentBits := by
    have hcast : ((b : Int) + 1) < ((2 ^ spec.exponentBits : Nat) : Int) := by push_cast; omega
    exact_mod_cast hcast
  have hlog : m.log2 = spec.mantissaBitsWithoutImplicit := by
    rw [Format.mantissaBits] at hm
    omega
  have hpack : UnpackedFloat.pack spec (.finite sign m e hpos) =
      UnpackedFloat.packComponents spec sign (BitVec.ofNat _ b) (BitVec.ofNat _ m) := by
    rw [UnpackedFloat.pack]
    simp only [hb, hm]
    rw [if_neg (by omega), if_pos trivial]
  have hexponent : (BitVec.ofNat spec.exponentBits b).toNat = b := Nat.mod_eq_of_lt (by omega)
  -- The exponent is neither that of an infinity nor that of a subnormal.
  have hfinite : BitVec.ofNat spec.exponentBits b ≠ -1#_ := by
    rw [Ne, ← BitVec.toNat_inj, hexponent]
    simp only [BitVec.neg_one_eq_allOnes, BitVec.toNat_allOnes]
    omega
  have hnormal : BitVec.ofNat spec.exponentBits b ≠ 0#_ := by
    rw [Ne, ← BitVec.toNat_inj, hexponent, BitVec.toNat_zero]
    omega
  rw [hpack, UnpackedFloat.unpack]
  simp only [UnpackedFloat.unpackExponent_packComponents,
    UnpackedFloat.unpackMantissa_packComponents, UnpackedFloat.unpackSign_packComponents,
    Sign.ofBitVec_toBitVec]
  rw [if_neg hfinite, if_neg hnormal]
  congr 1
  · exact append_ofNat hlog hpos
  · rw [hexponent]
    omega

/-! ### Singles as doubles -/

/-- The exponent of a single follows from the place of its leading bit. -/
theorem settled_single (hlog : m.log2 ≤ 23) (he : -149 ≤ e) (h : m.log2 = 23 ∨ e = -149) :
    Settled .binary32 m e := by
  simp only [Settled, Format.targetExponent, totalExponent, Format.mantissaBits, Format.minExponent]
  norm_num
  omega

theorem finite_of_unpack_single {bits : BitVec Format.binary32.numBits} {sign : Sign} {hpos : 0 < m}
    (h : UnpackedFloat.unpack .binary32 bits = .finite sign m e hpos) :
    m.log2 ≤ 23 ∧ -149 ≤ e ∧ e ≤ 104 ∧ Settled .binary32 m e := by
  have hmantissa : (@UnpackedFloat.unpackMantissa .binary32 bits).toNat < 2 ^ 23 :=
    BitVec.isLt _
  have hexponent : (@UnpackedFloat.unpackExponent .binary32 bits).toNat < 2 ^ 8 :=
    BitVec.isLt _
  have hbias : (Format.binary32.exponentBias : Int) = 127 := by decide
  rw [UnpackedFloat.unpack] at h
  simp only [] at h
  split at h
  · split at h <;> simp at h
  next hfinite =>
  have hfinite : (@UnpackedFloat.unpackExponent .binary32 bits).toNat ≠ 2 ^ 8 - 1 :=
    fun hall => hfinite (BitVec.toNat_inj.mp hall)
  split at h
  · next hsubnormal =>
    split at h
    · simp at h
    obtain ⟨-, rfl, rfl⟩ := UnpackedFloat.finite.inj h
    have hlog := (Nat.log2_lt hpos.ne').mpr hmantissa
    have hzero : ((@UnpackedFloat.unpackExponent .binary32 bits).toNat : Int) = 0 := by
      simp [hsubnormal]
    refine ⟨by omega, ?_, ?_, settled_single (by omega) ?_ (.inr ?_)⟩ <;> rw [hzero, hbias] <;>
      decide
  · next hnormal =>
    have hnormal : (@UnpackedFloat.unpackExponent .binary32 bits).toNat ≠ 0 :=
      fun hzero => hnormal (BitVec.toNat_inj.mp hzero)
    obtain ⟨-, rfl, rfl⟩ := UnpackedFloat.finite.inj h
    have hlog := log2_append (@UnpackedFloat.unpackMantissa .binary32 bits)
    refine ⟨hlog.le, ?_, ?_, settled_single hlog.le ?_ (.inl hlog)⟩ <;> omega

/-! ### Widening -/

theorem round_finite (sign : Sign) (hm : 0 < m) :
    (Exact.ofUnpacked (.finite sign m e hm)).round spec = UnpackedFloat.round spec sign m e := by
  cases sign <;> simp [ofUnpacked, Exact.round, hm.ne']

/-- A double keeps the number and moves it up until it fills the longer mantissa. -/
theorem unpack_pack_round_double (sign : Sign) (hm : 0 < m) (hlog : m.log2 ≤ 23) (hlow : -149 ≤ e)
    (hhigh : e ≤ 104) :
    ∃ n : Nat, ∃ h : 0 < m * 2 ^ n,
      UnpackedFloat.unpack .binary64 (UnpackedFloat.pack .binary64
        (UnpackedFloat.round .binary64 sign m e)) = .finite sign (m * 2 ^ n) (e - n) h := by
  obtain ⟨n, hn⟩ := Nat.exists_eq_add_of_le (show m.log2 ≤ 52 by omega)
  have hpos : 0 < m * 2 ^ n := by positivity
  have hfull : (m * 2 ^ n).log2 = 52 := by rw [log2_shift hm, ← hn]
  have hsettled : Settled .binary64 (m * 2 ^ n) (e - n) := by
    simp only [Settled, Format.targetExponent, totalExponent, Format.mantissaBits,
      Format.minExponent, hfull]
    norm_num
    omega
  have hbias : (Format.binary64.exponentBias : Int) = 1023 := by decide
  refine ⟨n, hpos, ?_⟩
  rw [round_of_ge sign n hpos hsettled]
  refine unpack_pack_normal (by rw [hfull]; rfl) ?_ ?_
  · rw [hbias]
    omega
  · rw [hbias]
    norm_num
    omega

theorem round_single_of_double (u : UnpackedFloat) {bits : BitVec Format.binary32.numBits}
    (hu : UnpackedFloat.unpack .binary32 bits = u) :
    (ofUnpacked (UnpackedFloat.unpack .binary64 (UnpackedFloat.pack .binary64
      ((ofUnpacked u).round .binary64)))).round .binary32 = u := by
  cases u with
  | notANumber => rfl
  | infinity sign => cases sign <;> rfl
  | zero sign => cases sign <;> rfl
  | finite sign m e hm =>
      obtain ⟨hlog, hlow, hhigh, hsettled⟩ := finite_of_unpack_single hu
      obtain ⟨n, hpos, hdouble⟩ := unpack_pack_round_double sign hm hlog hlow hhigh
      rw [round_finite, hdouble, round_finite]
      have hback : Settled .binary32 m (e - n + n) := by rwa [Int.sub_add_cancel]
      rw [round_of_le sign hm n hback, Int.sub_add_cancel]

end Exact

/-- Narrowing undoes widening. -/
@[simp]
theorem Single.narrow_widen (x : Single) : x.widen.narrow = x := by
  have hround : x.widen.exact.round .binary32 = x.toModel.unpack :=
    Exact.round_single_of_double _ rfl
  rw [Double.narrow, ofExact, hround]
  exact Float32.ofBits_toBits x

end Choreo
