import Choreo.Proofs.Number.Signed

/-!
# Square roots

A square root is cut to a whole number of last places and handed on with what tells it from the exact
one. So the single that comes of it is the exact root, rounded once, although the exact root need not be a
rational number: it is told by the numbers whose squares lie below and above.
-/

namespace Choreo

open Float.Model (Format UnpackedFloat totalExponent)
open Float.Model.UnpackedFloat (ExtendedMantissa Sign Accuracy)

/-- How a whole root is told from the exact one. -/
def rootAccuracy (n : ℕ) : Accuracy :=
  if n - n.sqrt * n.sqrt = 0 then .exact
  else .inexact (if n - n.sqrt * n.sqrt ≤ n.sqrt then .lt else .gt)

theorem cuts_below_half {m : ℕ} {q : ℚ} (hlow : m < q) (hhigh : q < m + 1 / 2) :
    Cuts q (.ofMantissaAndAccuracy m (.inexact .lt)) := by
  refine ⟨?_, ?_, ?_⟩ <;>
    simp only [ExtendedMantissa.ofMantissaAndAccuracy, Bool.false_eq_true, if_false, sub_zero]
  · linarith
  · linarith
  · simp only [Bool.true_eq_false, false_iff]
    linarith

theorem cuts_above_half {m : ℕ} {q : ℚ} (hlow : m + 1 / 2 < q) (hhigh : q < m + 1) :
    Cuts q (.ofMantissaAndAccuracy m (.inexact .gt)) := by
  refine ⟨?_, ?_, ?_⟩ <;> simp only [ExtendedMantissa.ofMantissaAndAccuracy, if_true]
  · linarith
  · linarith
  · simp only [Bool.true_eq_false, false_iff]
    linarith

/-- The exact root is a whole number, or it lies on one side of a middle, where all numbers are cut
alike. -/
theorem cuts_root (n : ℕ) :
    Cuts n.sqrt (.ofMantissaAndAccuracy n.sqrt (rootAccuracy n)) ∧ n = n.sqrt * n.sqrt ∨
      ∃ low high : ℚ, n.sqrt ≤ low ∧ low < high ∧ low * low < n ∧ n < high * high ∧
        ∀ q, low < q → q < high → Cuts q (.ofMantissaAndAccuracy n.sqrt (rootAccuracy n)) := by
  have hlow : n.sqrt * n.sqrt ≤ n := Nat.sqrt_le n
  have hhigh : n < (n.sqrt + 1) * (n.sqrt + 1) := Nat.lt_succ_sqrt n
  rw [rootAccuracy]
  split_ifs with hexact hhalf
  · exact Or.inl ⟨cuts_natCast _, by omega⟩
  · have hbelow : ((n.sqrt : ℚ) * n.sqrt) < n := by exact_mod_cast (by omega : n.sqrt * n.sqrt < n)
    have habove : (n : ℚ) ≤ n.sqrt * n.sqrt + n.sqrt := by
      exact_mod_cast (by omega : n ≤ n.sqrt * n.sqrt + n.sqrt)
    refine Or.inr ⟨n.sqrt, n.sqrt + 1 / 2, le_rfl, by linarith, hbelow, ?_,
      fun q => cuts_below_half⟩
    calc (n : ℚ)
      _ ≤ n.sqrt * n.sqrt + n.sqrt := habove
      _ < (n.sqrt + 1 / 2) * (n.sqrt + 1 / 2) := by ring_nf; norm_num
  · have hbelow : (n.sqrt : ℚ) * n.sqrt + n.sqrt + 1 ≤ n := by
      exact_mod_cast (by omega : n.sqrt * n.sqrt + n.sqrt + 1 ≤ n)
    have habove : (n : ℚ) < (n.sqrt + 1) * (n.sqrt + 1) := by exact_mod_cast hhigh
    refine Or.inr ⟨n.sqrt + 1 / 2, n.sqrt + 1, by linarith, by linarith, ?_, habove,
      fun q => cuts_above_half⟩
    calc ((n.sqrt : ℚ) + 1 / 2) * (n.sqrt + 1 / 2)
      _ < n.sqrt * n.sqrt + n.sqrt + 1 := by ring_nf; norm_num
      _ ≤ n := hbelow

section Between

variable {n : ℕ} {p : ℚ} (hp : 0 ≤ p)
include hp

theorem exists_cuts_ge (hle : p * p ≤ n) :
    ∃ q : ℚ, p ≤ q ∧ n.sqrt ≤ q ∧ Cuts q (.ofMantissaAndAccuracy n.sqrt (rootAccuracy n)) := by
  rcases cuts_root n with ⟨hcuts, hexact⟩ | ⟨low, high, hroot, hlt, _, hhigh, hcuts⟩
  · refine ⟨n.sqrt, ?_, le_rfl, hcuts⟩
    refine (mul_self_le_mul_self_iff hp (Nat.cast_nonneg _)).mpr (hle.trans ?_)
    exact_mod_cast hexact.le
  · have hhighpos : 0 ≤ high := (Nat.cast_nonneg n.sqrt).trans (hroot.trans hlt.le)
    have hphigh : p < high := lt_of_mul_self_lt_mul_self₀ hhighpos (hle.trans_lt hhigh)
    refine ⟨max p ((low + high) / 2), le_max_left _ _, ?_, hcuts _ ?_ ?_⟩
    · exact le_max_of_le_right (by linarith)
    · exact lt_max_of_lt_right (by linarith)
    · exact max_lt hphigh (by linarith)

theorem exists_cuts_le (hle : n ≤ p * p) :
    ∃ q : ℚ, q ≤ p ∧ n.sqrt ≤ q ∧ Cuts q (.ofMantissaAndAccuracy n.sqrt (rootAccuracy n)) := by
  rcases cuts_root n with ⟨hcuts, hexact⟩ | ⟨low, high, hroot, hlt, hlow, _, hcuts⟩
  · refine ⟨n.sqrt, ?_, le_rfl, hcuts⟩
    refine (mul_self_le_mul_self_iff (Nat.cast_nonneg _) hp).mpr (le_trans ?_ hle)
    exact_mod_cast hexact.ge
  · have hplow : low < p := lt_of_mul_self_lt_mul_self₀ hp (hlow.trans_le hle)
    refine ⟨min p ((low + high) / 2), min_le_left _ _, ?_, hcuts _ ?_ ?_⟩
    · exact le_min (hroot.trans hplow.le) (by linarith)
    · exact lt_min hplow (by linarith)
    · exact min_lt_of_right_lt (by linarith)

end Between

/-- What becomes of a square root: the rounded numbers whose squares are smaller are not greater, and
those whose squares are greater are not smaller. -/
structure Root (r t : ℚ) : Prop where
  ge : ∀ p p', 0 ≤ p → p * p ≤ r → Rounds p p' → p' ≤ t
  le : ∀ p p', 0 ≤ p → r ≤ p * p → Rounds p p' → t ≤ p'

/-- A whole root has at least as many bits as a mantissa, or it goes down to the last place of all. -/
theorem le_lastPlace_root {m k : ℕ} {e f : ℤ} (hm : 0 < m) (hk : e - 2 * f = k) (he : -149 ≤ e)
    (hf : f = min (e.ediv 2)
      (Format.binary32.targetExponent ((totalExponent m e + 1).ediv 2))) {q : ℚ}
    (hq : (m * 2 ^ k).sqrt ≤ q) : 0 < q ∧ f ≤ lastPlace (q * 2 ^ f) := by
  have hplace := two_zpow_pos f
  have htarget : f ≤ max ((m.log2 + 1 + e + 1) / 2 - 24) (-149) := by
    rw [hf, targetExponent_single, totalExponent]
    exact min_le_right _ _
  obtain ⟨j, hj⟩ : ∃ j : ℕ, (m.log2 + 1 + e + 1) / 2 - 1 = f + j :=
    ⟨((m.log2 + 1 + e + 1) / 2 - 1 - f).toNat, by omega⟩
  have hroot : 2 ^ j ≤ (m * 2 ^ k).sqrt := by
    have hbits : 2 ^ m.log2 ≤ m := Nat.log2_self_le hm.ne'
    refine Nat.le_sqrt.mpr ?_
    calc 2 ^ j * 2 ^ j
      _ = 2 ^ (j + j) := (pow_add 2 j j).symm
      _ ≤ 2 ^ (m.log2 + k) := Nat.pow_le_pow_right two_pos (by omega)
      _ = 2 ^ m.log2 * 2 ^ k := pow_add 2 _ _
      _ ≤ m * 2 ^ k := Nat.mul_le_mul_right _ hbits
  have hqroot : (2 : ℚ) ^ j ≤ q := le_trans (by exact_mod_cast hroot) hq
  have hqpos : 0 < q := lt_of_lt_of_le (by positivity) hqroot
  have hlog : f + j ≤ Int.log 2 (q * 2 ^ f) := by
    refine (Int.zpow_le_iff_le_log (by norm_num) (by positivity)).mp ?_
    push_cast
    rw [add_comm, two_zpow_add, zpow_natCast]
    gcongr
  refine ⟨hqpos, ?_⟩
  rw [lastPlace]
  omega

/-- The square root of a finite number is a whole root, in places of its own. -/
theorem sqrt_finite {m k : ℕ} {e f : ℤ} (hm : 0 < m)
    (hf : f = min (e.ediv 2)
      (Format.binary32.targetExponent ((totalExponent m e + 1).ediv 2))) (hk : e - 2 * f = k) :
    UnpackedFloat.sqrt .binary32 (.finite .positive m e hm) =
      UnpackedFloat.roundWithAccuracy .binary32 .positive (m * 2 ^ k).sqrt f
        (rootAccuracy (m * 2 ^ k)) := by
  have hshift : (e - 2 * f).toNat = k := by omega
  rw [UnpackedFloat.sqrt]
  simp only [UnpackedFloat.sqrtCore, ← hf, hshift, Nat.shiftLeft_eq]
  rfl

theorem shifted_value {m k : ℕ} {e f : ℤ} (hk : e - 2 * f = k) :
    ((m * 2 ^ k : ℕ) : ℚ) * (2 ^ f * 2 ^ f) = m * 2 ^ e := by
  rw [two_zpow_of_eq (e := e) (f := f + f) (k := k) (by omega), two_zpow_add]
  push_cast
  ring

theorem stands_sqrt {u : UnpackedFloat} {r : ℚ} (h : Stands u r) (hr : r < 2 ^ 128) :
    ∃ t, Stands (UnpackedFloat.unpack .binary32 (UnpackedFloat.pack .binary32
      (UnpackedFloat.sqrt .binary32 u))) t ∧ Root r t := by
  cases h with
  | zero sign =>
      refine ⟨0, (Stands.zero sign).repack, ⟨fun p p' hp hle hrounds => ?_,
        fun p p' _ _ hrounds => hrounds.nonneg⟩⟩
      obtain rfl : p = 0 := by nlinarith
      exact (hrounds.eq le_rfl (Stands.zero sign).rounds).le
  | infinity => exact absurd hr (lt_irrefl _)
  | @finite m e hm canonical le =>
      obtain ⟨f, hf⟩ : ∃ f : ℤ, f = min (e.ediv 2)
          (Format.binary32.targetExponent ((totalExponent m e + 1).ediv 2)) := ⟨_, rfl⟩
      have hfe : 2 * f ≤ e := by
        have hhalf : f ≤ e / 2 := hf ▸ min_le_left _ _
        omega
      obtain ⟨k, hk⟩ : ∃ k : ℕ, e - 2 * f = k := ⟨(e - 2 * f).toNat, by omega⟩
      have hplace := two_zpow_pos f
      have hvalue := shifted_value (m := m) hk
      -- The root has at least as many bits as a mantissa.
      have hlast : ∀ q : ℚ, (m * 2 ^ k).sqrt ≤ q → 0 < q ∧ f ≤ lastPlace (q * 2 ^ f) :=
        fun q => le_lastPlace_root hm hk canonical.le hf
      obtain ⟨q, _, hq, hcuts⟩ :=
        exists_cuts_ge (n := m * 2 ^ k) (p := 0) le_rfl (by rw [mul_zero]; positivity)
      obtain ⟨hqpos, hqlast⟩ := hlast q hq
      obtain ⟨t, ht, _⟩ := stands_roundWithAccuracy hcuts hqpos hqlast
      have hrounds : ∀ q : ℚ, (m * 2 ^ k).sqrt ≤ q → Cuts q (.ofMantissaAndAccuracy (m * 2 ^ k).sqrt
          (rootAccuracy (m * 2 ^ k))) → 0 ≤ q * 2 ^ f ∧ Rounds (q * 2 ^ f) t := by
        intro q hq hcuts
        obtain ⟨hqpos, hqlast⟩ := hlast q hq
        obtain ⟨t', ht', hrounds⟩ := stands_roundWithAccuracy hcuts hqpos hqlast
        rw [ht.eq ht']
        exact ⟨by positivity, hrounds⟩
      rw [sqrt_finite hm hf hk]
      refine ⟨t, ht, ⟨fun p p' hp hle hp' => ?_, fun p p' hp hle hp' => ?_⟩⟩
      · have hsquare : p / 2 ^ f * (p / 2 ^ f) ≤ (m * 2 ^ k : ℕ) := by
          rw [div_mul_div_comm, div_le_iff₀ (by positivity), hvalue]
          exact hle
        obtain ⟨q, hpq, hq, hcuts⟩ := exists_cuts_ge (by positivity) hsquare
        obtain ⟨_, ht⟩ := hrounds q hq hcuts
        exact hp'.mono hp ((div_le_iff₀ hplace).mp hpq) ht
      · have hsquare : (m * 2 ^ k : ℕ) ≤ p / 2 ^ f * (p / 2 ^ f) := by
          rw [div_mul_div_comm, le_div_iff₀ (by positivity), hvalue]
          exact hle
        obtain ⟨q, hpq, hq, hcuts⟩ := exists_cuts_le (by positivity) hsquare
        obtain ⟨hpos, ht⟩ := hrounds q hq hcuts
        exact ht.mono hpos ((le_div_iff₀ hplace).mp hpq) hp'

namespace Single

variable {x : Single} {r : ℚ}

theorem Amounts.sqrt (h : x.Amounts r) (hr : r < 2 ^ 128) : ∃ t, Amounts x.sqrt t ∧ Root r t :=
  stands_sqrt h hr

end Single

end Choreo
