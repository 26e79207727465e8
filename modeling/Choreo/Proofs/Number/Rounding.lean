import Choreo.Proofs.Number.Exactness
import Mathlib.Data.Int.Log

/-!
# Rounding to the nearest single

A single keeps a positive number with a fixed last place, which follows from the place of the leading
bit; what lies between two neighbours goes to the nearer one, and from the middle to the one whose
mantissa is even. So rounding keeps the order of numbers, does nothing to a number that a single has
room for, and never more than doubles one. The mantissa is cut in several steps, which hand on two
bits about what has been cut off; those are all that the last step has to know.
-/

namespace Choreo

open Float.Model (Format UnpackedFloat totalExponent)
open Float.Model.UnpackedFloat (ExtendedMantissa Sign Accuracy)

/-! ### Whole numbers next to a number -/

/-- No whole number is nearer, and of two that are equally near this is the even one. -/
structure Nearest (q : ℚ) (m : ℕ) : Prop where
  le_add : q ≤ m + 1 / 2
  sub_le : m - 1 / 2 ≤ q
  even_of_le : q = m + 1 / 2 → Even m
  even_of_ge : q = m - 1 / 2 → Even m

theorem Nearest.natCast (m : ℕ) : Nearest m m where
  le_add := by linarith
  sub_le := by linarith
  even_of_le h := by linarith
  even_of_ge h := by linarith

theorem Nearest.mono {q q' : ℚ} {m m' : ℕ} (h : Nearest q m) (h' : Nearest q' m') (hle : q ≤ q') :
    m ≤ m' := by
  by_contra hlt
  have hsucc : (m' : ℚ) + 1 ≤ m := by exact_mod_cast (by omega : m' + 1 ≤ m)
  -- Both are in the middle of two neighbours, and each has gone to an even one.
  have hbelow := h.sub_le
  have habove := h'.le_add
  have hm : Even m := h.even_of_ge (by linarith)
  have hm' : Even m' := h'.even_of_le (by linarith)
  have hnext : m = m' + 1 := by
    have hle : (m : ℚ) ≤ m' + 1 := by linarith
    exact le_antisymm (by exact_mod_cast hle) (by omega)
  rw [hnext, Nat.even_add_one] at hm
  exact hm hm'

theorem Nearest.le_two_mul {q : ℚ} {m : ℕ} (h : Nearest q m) (hq : 0 ≤ q) : (m : ℚ) ≤ 2 * q := by
  rcases Nat.eq_zero_or_pos m with rfl | hm
  · simpa using hq
  · have hone : (1 : ℚ) ≤ m := by exact_mod_cast hm
    have hbelow := h.sub_le
    linarith

/-! ### Rounded numbers -/

/-- The exponent of the last place with which a single keeps a number. -/
def lastPlace (x : ℚ) : ℤ := max (Int.log 2 x - 23) (-149)

/-- What a number becomes in a single. From `2 ^ 128` on all numbers are too large, and this one stands
for them. -/
def Rounds (x r : ℚ) : Prop :=
  ∃ m : ℕ, Nearest (x / 2 ^ lastPlace x) m ∧ r = min ((m : ℚ) * 2 ^ lastPlace x) (2 ^ 128)

/-- A single has room for the number, if it is not too large. -/
def Fits (x : ℚ) : Prop := ∃ (m : ℕ) (e : ℤ), m < 2 ^ 24 ∧ -149 ≤ e ∧ x = m * 2 ^ e

theorem two_zpow_pos (e : ℤ) : (0 : ℚ) < 2 ^ e := by positivity

theorem two_zpow_add (e f : ℤ) : (2 : ℚ) ^ (e + f) = 2 ^ e * 2 ^ f := zpow_add₀ (by norm_num) e f

/-- A place that is `k` higher is worth `2 ^ k` times as much. -/
theorem two_zpow_of_eq {e f : ℤ} {k : ℕ} (h : e = f + k) : (2 : ℚ) ^ e = 2 ^ k * 2 ^ f := by
  rw [h, two_zpow_add, zpow_natCast, mul_comm]

theorem zpow_log_le {x : ℚ} (hx : 0 < x) : (2 : ℚ) ^ Int.log 2 x ≤ x := by
  exact_mod_cast Int.zpow_log_le_self (by norm_num) hx

theorem lt_zpow_log_add_one (x : ℚ) : x < 2 ^ (Int.log 2 x + 1) := by
  exact_mod_cast Int.lt_zpow_succ_log_self (by norm_num) x

theorem log_eq {x : ℚ} {e : ℤ} (hle : 2 ^ e ≤ x) (hlt : x < 2 ^ (e + 1)) : Int.log 2 x = e := by
  have hx : 0 < x := (two_zpow_pos e).trans_le hle
  have hlow : e ≤ Int.log 2 x :=
    (Int.zpow_le_iff_le_log (by norm_num) hx).mp (by exact_mod_cast hle)
  have hhigh : Int.log 2 x < e + 1 :=
    (Int.lt_zpow_iff_log_lt (by norm_num) hx).mp (by exact_mod_cast hlt)
  omega

theorem neg_le_lastPlace (x : ℚ) : -149 ≤ lastPlace x := le_max_right _ _

/-- The mantissa has room for 24 bits. -/
theorem lt_two_zpow_lastPlace (x : ℚ) : x < 2 ^ (24 : ℤ) * 2 ^ lastPlace x := by
  refine (lt_zpow_log_add_one x).trans_le ?_
  rw [← two_zpow_add]
  exact zpow_le_zpow_right₀ (by norm_num) (by rw [lastPlace]; omega)

/-- A mantissa with fewer bits than there is room for stands at the last place of all. -/
theorem two_zpow_lastPlace_le {x : ℚ} (hx : 0 < x) (hplace : -149 < lastPlace x) :
    2 ^ (23 : ℤ) * 2 ^ lastPlace x ≤ x := by
  refine le_trans ?_ (zpow_log_le hx)
  rw [← two_zpow_add]
  exact zpow_le_zpow_right₀ (by norm_num) (by rw [lastPlace] at hplace ⊢; omega)

theorem lastPlace_mono {x y : ℚ} (hx : 0 < x) (hxy : x ≤ y) : lastPlace x ≤ lastPlace y := by
  have hlog := Int.log_mono_right (b := 2) hx hxy
  rw [lastPlace, lastPlace]
  omega

theorem Nearest.mantissa_le {x : ℚ} {m : ℕ} (h : Nearest (x / 2 ^ lastPlace x) m) : m ≤ 2 ^ 24 := by
  refine h.mono (.natCast _) ?_
  rw [div_le_iff₀ (two_zpow_pos _)]
  push_cast
  exact_mod_cast (lt_two_zpow_lastPlace x).le

theorem Nearest.le_mantissa {x : ℚ} {m : ℕ} (h : Nearest (x / 2 ^ lastPlace x) m) (hx : 0 < x)
    (hplace : -149 < lastPlace x) : 2 ^ 23 ≤ m := by
  refine (Nearest.natCast _).mono h ?_
  rw [le_div_iff₀ (two_zpow_pos _)]
  push_cast
  exact_mod_cast two_zpow_lastPlace_le hx hplace

theorem Rounds.nonneg {x r : ℚ} (h : Rounds x r) : 0 ≤ r := by
  obtain ⟨m, _, rfl⟩ := h
  have := two_zpow_pos (lastPlace x)
  positivity

theorem Rounds.le_max {x r : ℚ} (h : Rounds x r) : r ≤ 2 ^ 128 := by
  obtain ⟨m, _, rfl⟩ := h
  exact min_le_right _ _

/-- Rounding keeps the order. -/
theorem Rounds.mono {x y r s : ℚ} (hx : 0 ≤ x) (hxy : x ≤ y) (h : Rounds x r) (h' : Rounds y s) :
    r ≤ s := by
  obtain ⟨m, hm, rfl⟩ := h
  obtain ⟨m', hm', rfl⟩ := h'
  refine min_le_min_right _ ?_
  have hx' := two_zpow_pos (lastPlace x)
  have hy' := two_zpow_pos (lastPlace y)
  rcases hx.eq_or_lt with rfl | hpos
  · have hzero : m ≤ 0 := hm.mono (.natCast 0) (by simp)
    obtain rfl : m = 0 := by omega
    simp only [Nat.cast_zero, zero_mul]
    positivity
  rcases (lastPlace_mono hpos hxy).eq_or_lt with hplace | hplace
  · rw [hplace] at hm ⊢
    have hmm' : (m : ℚ) ≤ m' := by
      exact_mod_cast hm.mono hm' (div_le_div_of_nonneg_right hxy hy'.le)
    gcongr
  -- The smaller number is at most the power of two at which the larger one's leading bit stands.
  · have hlow := hm.mantissa_le
    have hhigh := hm'.le_mantissa (hpos.trans_le hxy) ((neg_le_lastPlace x).trans_lt hplace)
    calc (m : ℚ) * 2 ^ lastPlace x
      _ ≤ 2 ^ 24 * 2 ^ lastPlace x := by gcongr; exact_mod_cast hlow
      _ = 2 ^ 23 * 2 ^ (lastPlace x + 1) := by rw [two_zpow_add]; ring
      _ ≤ 2 ^ 23 * 2 ^ lastPlace y := by
          gcongr
          · norm_num
          · omega
      _ ≤ m' * 2 ^ lastPlace y := by gcongr; exact_mod_cast hhigh

theorem Rounds.eq {x r s : ℚ} (hx : 0 ≤ x) (h : Rounds x r) (h' : Rounds x s) : r = s :=
  le_antisymm (h.mono hx le_rfl h') (h'.mono hx le_rfl h)

/-- Rounding at most doubles a number: nothing is nearer to what is rounded than zero. -/
theorem Rounds.le_two_mul {x r : ℚ} (hx : 0 ≤ x) (h : Rounds x r) : r ≤ 2 * x := by
  obtain ⟨m, hm, rfl⟩ := h
  have hplace := two_zpow_pos (lastPlace x)
  have hdouble := hm.le_two_mul (by positivity)
  calc min ((m : ℚ) * 2 ^ lastPlace x) (2 ^ 128)
    _ ≤ m * 2 ^ lastPlace x := min_le_left _ _
    _ ≤ 2 * (x / 2 ^ lastPlace x) * 2 ^ lastPlace x := by gcongr
    _ = 2 * x := by rw [mul_assoc, div_mul_cancel₀ _ hplace.ne']

theorem log_natCast_mul {m : ℕ} (hm : 0 < m) (e : ℤ) :
    Int.log 2 ((m : ℚ) * 2 ^ e) = m.log2 + e := by
  have he := two_zpow_pos e
  refine log_eq ?_ ?_
  · rw [two_zpow_add, zpow_natCast]
    gcongr
    exact_mod_cast Nat.log2_self_le hm.ne'
  · rw [add_right_comm, two_zpow_add, ← Nat.cast_add_one, zpow_natCast]
    gcongr
    exact_mod_cast Nat.lt_log2_self

theorem lastPlace_natCast_mul {m : ℕ} (hm : 0 < m) (e : ℤ) :
    lastPlace (m * 2 ^ e) = max (m.log2 + e - 23) (-149) := by
  rw [lastPlace, log_natCast_mul hm]

/-- A number that a single has room for is kept. -/
theorem Fits.rounds {x : ℚ} (h : Fits x) (hmax : x ≤ 2 ^ 128) : Rounds x x := by
  obtain ⟨m, e, hm, he, rfl⟩ := h
  rcases Nat.eq_zero_or_pos m with rfl | hpos
  · refine ⟨0, ?_, ?_⟩
    · simpa using Nearest.natCast 0
    · simp
  have hlog : m.log2 ≤ 23 := Nat.lt_succ_iff.mp ((Nat.log2_lt hpos.ne').mpr hm)
  have hplace := lastPlace_natCast_mul hpos e
  obtain ⟨n, hn⟩ : ∃ n : ℕ, e = n + lastPlace (m * 2 ^ e) :=
    ⟨(e - lastPlace (m * 2 ^ e)).toNat, by omega⟩
  have hx : (m : ℚ) * 2 ^ e = (m * 2 ^ n : ℕ) * 2 ^ lastPlace (m * 2 ^ e) := by
    nth_rewrite 1 [hn]
    rw [two_zpow_add, zpow_natCast]
    push_cast
    ring
  refine ⟨m * 2 ^ n, ?_, ?_⟩
  · rw [(div_eq_iff (two_zpow_pos _).ne').mpr hx]
    exact .natCast _
  · rw [← hx, min_eq_left hmax]

theorem Fits.of_le {m : ℕ} {e : ℤ} (hm : m ≤ 2 ^ 24) (he : -149 ≤ e) : Fits (m * 2 ^ e) := by
  rcases hm.lt_or_eq with hlt | rfl
  · exact ⟨m, e, hlt, he, rfl⟩
  · refine ⟨2 ^ 23, e + 1, by norm_num, by omega, ?_⟩
    rw [two_zpow_add]
    push_cast
    ring

theorem fits_max : Fits (2 ^ 128) := ⟨2 ^ 23, 105, by norm_num, by norm_num, by norm_num⟩

theorem Rounds.fits {x r : ℚ} (h : Rounds x r) : Fits r := by
  obtain ⟨m, hm, rfl⟩ := h
  rcases min_choice ((m : ℚ) * 2 ^ lastPlace x) (2 ^ 128) with hmin | hmin <;> rw [hmin]
  · exact .of_le hm.mantissa_le (neg_le_lastPlace x)
  · exact fits_max

theorem Fits.double {x : ℚ} (h : Fits x) : Fits (x + x) := by
  obtain ⟨m, e, hm, he, rfl⟩ := h
  refine ⟨m, e + 1, hm, by omega, ?_⟩
  rw [two_zpow_add]
  ring

theorem fits_natCast {n : ℕ} (hn : n ≤ 2 ^ 24) : Fits n := by
  simpa using Fits.of_le (e := 0) hn (by norm_num)

/-- From `2 ^ 24` on there is only room for whole numbers. -/
theorem Fits.natCast_floor {x : ℚ} (h : Fits x) (hx : 2 ^ 24 ≤ x) : (⌊x⌋₊ : ℚ) = x := by
  obtain ⟨m, e, hm, _, rfl⟩ := h
  have hmcast : (m : ℚ) < 2 ^ 24 := by exact_mod_cast hm
  have he : 0 ≤ e := by
    by_contra hneg
    have hle : (m : ℚ) * 2 ^ e ≤ m * 2 ^ (0 : ℤ) := by
      gcongr
      · norm_num
      · omega
    rw [zpow_zero, mul_one] at hle
    linarith
  obtain ⟨n, rfl⟩ := Int.eq_ofNat_of_zero_le he
  have hwhole : (m : ℚ) * 2 ^ (n : ℤ) = (m * 2 ^ n : ℕ) := by push_cast; rfl
  rw [hwhole, Nat.floor_natCast]

/-! ### Cutting a mantissa -/

/-- The mantissa is the number cut to a whole one, the round bit tells whether half or more has been
cut off, and the sticky bit whether there was anything else. -/
structure Cuts (q : ℚ) (em : ExtendedMantissa) : Prop where
  nonneg : 0 ≤ q - em.mantissa - (if em.roundBit then 1 / 2 else 0)
  lt_half : q - em.mantissa - (if em.roundBit then 1 / 2 else 0) < 1 / 2
  sticky : em.stickyBit = false ↔ q - em.mantissa - (if em.roundBit then 1 / 2 else 0) = 0

theorem Cuts.shiftRightOne {q : ℚ} {em : ExtendedMantissa} (h : Cuts q em) :
    Cuts (q / 2) em.shiftRightOne := by
  obtain ⟨m, round, sticky⟩ := em
  obtain ⟨hnonneg, hlt, hsticky⟩ := h
  simp only at hnonneg hlt hsticky
  -- The last bit of the mantissa is what is cut off now.
  have hsplit : (m : ℚ) = 2 * (m / 2 : ℕ) + if m % 2 != 0 then 1 else 0 := by
    have hdiv := Nat.div_add_mod m 2
    rcases Nat.mod_two_eq_zero_or_one m with hmod | hmod <;> rw [hmod] at hdiv <;>
      simp only [hmod] <;> norm_num <;> exact_mod_cast hdiv.symm
  have hrest : q / 2 - (m / 2 : ℕ) - (if m % 2 != 0 then 1 / 2 else 0) =
      (q - m - (if round then 1 / 2 else 0)) / 2 + if round then 1 / 4 else 0 := by
    rw [hsplit]
    cases round <;> split <;> norm_num <;> ring
  have hshift : (⟨m, round, sticky⟩ : ExtendedMantissa).shiftRightOne =
      ⟨m / 2, m % 2 != 0, round || sticky⟩ := rfl
  rw [hshift]
  constructor
  · change 0 ≤ q / 2 - (m / 2 : ℕ) - (if m % 2 != 0 then 1 / 2 else 0)
    rw [hrest]
    cases round <;> norm_num at hnonneg ⊢ <;> linarith
  · change q / 2 - (m / 2 : ℕ) - (if m % 2 != 0 then 1 / 2 else 0) < 1 / 2
    rw [hrest]
    cases round <;> norm_num at hnonneg hlt ⊢ <;> linarith
  · change (round || sticky) = false ↔
      q / 2 - (m / 2 : ℕ) - (if m % 2 != 0 then 1 / 2 else 0) = 0
    rw [hrest]
    cases round with
    | true =>
        simp only [Bool.true_or, Bool.true_eq_false, if_true, false_iff] at hnonneg ⊢
        linarith
    | false => simpa using hsticky

theorem Cuts.shift {q : ℚ} {em : ExtendedMantissa} (h : Cuts q em) (n : ℕ) :
    Cuts (q / 2 ^ n) (em >>> n) := by
  induction n with
  | zero => simpa [HShiftRight.hShiftRight, Nat.repeat] using h
  | succ n ih =>
      rw [pow_succ, ← div_div]
      exact ih.shiftRightOne

theorem Cuts.nearest {q : ℚ} {em : ExtendedMantissa} (h : Cuts q em) :
    Nearest q em.roundedMantissa := by
  obtain ⟨m, round, sticky⟩ := em
  obtain ⟨hnonneg, hlt, hsticky⟩ := h
  simp only at hnonneg hlt hsticky
  cases round <;> cases sticky <;> norm_num at hnonneg hlt hsticky
  · obtain rfl : q = m := by linarith
    exact .natCast m
  · have hpos : q - m ≠ 0 := hsticky
    change Nearest q m
    exact ⟨by linarith, by linarith, fun h => by linarith, fun h => by linarith⟩
  · obtain rfl : q = m + 1 / 2 := by linarith
    change Nearest (m + 1 / 2) (m + m % 2)
    rcases Nat.mod_two_eq_zero_or_one m with hmod | hmod <;> rw [hmod]
    · have heven : Even m := Nat.even_iff.mpr hmod
      exact ⟨by simp, by simp; linarith, fun _ => heven, fun _ => heven⟩
    · have heven : Even (m + 1) := Nat.even_iff.mpr (by omega)
      exact ⟨by push_cast; linarith, by push_cast; linarith, fun _ => heven, fun _ => heven⟩
  · have hpos : q - m - 1 / 2 ≠ 0 := hsticky
    have hpos : 0 < q - m - 1 / 2 := lt_of_le_of_ne (by linarith) hpos.symm
    change Nearest q (m + 1 : ℕ)
    refine ⟨?_, ?_, ?_, ?_⟩ <;> push_cast
    · linarith
    · linarith
    · intro h
      linarith
    · intro h
      linarith

theorem cuts_natCast (m : ℕ) : Cuts m (.ofMantissaAndAccuracy m .exact) where
  nonneg := by simp [ExtendedMantissa.ofMantissaAndAccuracy]
  lt_half := by simp [ExtendedMantissa.ofMantissaAndAccuracy]
  sticky := by simp [ExtendedMantissa.ofMantissaAndAccuracy]

/-- The remainder of a division tells how far the quotient is from half a unit. -/
theorem cuts_div (a : ℕ) {b : ℕ} (hb : 0 < b) :
    Cuts ((a : ℚ) / b)
      (.ofMantissaAndAccuracy (a / b) (UnpackedFloat.accuracyOfFraction (a % b) b)) := by
  have hb' : (0 : ℚ) < b := by exact_mod_cast hb
  have hlt : ((a % b : ℕ) : ℚ) < b := by exact_mod_cast Nat.mod_lt a hb
  have hsplit : (a : ℚ) / b = (a / b : ℕ) + ((a % b : ℕ) : ℚ) / b := by
    rw [div_eq_iff hb'.ne', add_mul, div_mul_cancel₀ _ hb'.ne']
    exact_mod_cast (Nat.div_add_mod' a b).symm
  rw [hsplit, UnpackedFloat.accuracyOfFraction]
  generalize a % b = c at hlt ⊢
  generalize a / b = d
  split
  · next hzero =>
    rw [hzero, Nat.cast_zero, zero_div, add_zero]
    exact cuts_natCast d
  · next hsome =>
    have hc : (0 : ℚ) < c := by exact_mod_cast Nat.pos_of_ne_zero hsome
    have hfraction : 0 < (c : ℚ) / b := by positivity
    rcases lt_trichotomy (2 * c) b with horder | horder | horder
    · have hhalf : (c : ℚ) / b < 1 / 2 := by
        rw [div_lt_div_iff₀ hb' two_pos]
        exact_mod_cast (by omega : c * 2 < 1 * b)
      rw [compare_lt_iff_lt.mpr horder]
      simp only [ExtendedMantissa.ofMantissaAndAccuracy]
      exact ⟨by simpa using hfraction.le, by simpa using hhalf, by simpa using hfraction.ne'⟩
    · have hhalf : (c : ℚ) / b = 1 / 2 := by
        rw [div_eq_div_iff hb'.ne' two_ne_zero]
        exact_mod_cast (by omega : c * 2 = 1 * b)
      rw [compare_eq_iff_eq.mpr horder, hhalf]
      simp only [ExtendedMantissa.ofMantissaAndAccuracy]
      constructor <;> norm_num
    · have hhalf : 1 / 2 < (c : ℚ) / b := by
        rw [div_lt_div_iff₀ two_pos hb']
        exact_mod_cast (by omega : 1 * b < c * 2)
      have hone : (c : ℚ) / b < 1 := (div_lt_one hb').mpr hlt
      rw [compare_gt_iff_gt.mpr horder]
      simp only [ExtendedMantissa.ofMantissaAndAccuracy]
      refine ⟨?_, ?_, ?_⟩ <;> simp only [if_true, Bool.true_eq_false, false_iff] <;> linarith

/-! ### Every number can be rounded -/

theorem exists_nearest {q : ℚ} (hq : 0 ≤ q) : ∃ m, Nearest q m := by
  have hfloor := Nat.floor_le hq
  have hceil := Nat.lt_floor_add_one q
  by_cases hhalf : 1 / 2 ≤ q - ⌊q⌋₊
  · have hcuts : Cuts q ⟨⌊q⌋₊, true, decide (q - ⌊q⌋₊ - 1 / 2 ≠ 0)⟩ := by
      refine ⟨?_, ?_, ?_⟩ <;> simp only [if_true]
      · linarith
      · linarith
      · simp
    exact ⟨_, hcuts.nearest⟩
  · have hcuts : Cuts q ⟨⌊q⌋₊, false, decide (q - ⌊q⌋₊ ≠ 0)⟩ := by
      refine ⟨?_, ?_, ?_⟩ <;> simp only [Bool.false_eq_true, if_false, sub_zero]
      · linarith
      · linarith
      · simp
    exact ⟨_, hcuts.nearest⟩

/-- What is too large is kept as too large. -/
theorem rounds_of_le {x : ℚ} (hx : 2 ^ 128 ≤ x) : Rounds x (2 ^ 128) := by
  have hpos : 0 ≤ x := le_trans (by positivity) hx
  obtain ⟨m, hm⟩ := exists_nearest (q := x / 2 ^ lastPlace x) (by positivity)
  have hrounds : Rounds x (min (m * 2 ^ lastPlace x) (2 ^ 128)) := ⟨m, hm, rfl⟩
  have hge := (fits_max.rounds le_rfl).mono (by positivity) hx hrounds
  rwa [hrounds.le_max.antisymm hge] at hrounds

/-- A number is doubled without rounding, unless that makes it too large. -/
theorem Rounds.double_eq {x r : ℚ} (hx : 0 ≤ x) (hfits : Fits x) (h : Rounds (x + x) r)
    (hr : r < 2 ^ 128) : r = x + x := by
  have hpos : 0 ≤ x + x := by linarith
  rcases le_total (x + x) (2 ^ 128) with hle | hge
  · exact h.eq hpos (hfits.double.rounds hle)
  · exact absurd (h.eq hpos (rounds_of_le hge)) hr.ne

end Choreo
