import Choreo.Surroundings
import Choreo.Proofs.Number.Circle

/-!
# The plane

A vector is bounded part by part. Its length is a rounded root of a rounded sum of rounded squares, and
falls short of the exact length by a fixed share of it at most; so what is left of a vector that is
divided by its length is bounded, whatever the vector is.
-/

namespace Choreo

open Float.Model (Format UnpackedFloat)

theorem Single.amounts_of_unpack {x : Single} {m : ℕ} {e : ℤ} {h : 0 < m}
    (hx : x.toModel.unpack = .finite .positive m e h) : x.Amounts (m * 2 ^ e) := by
  obtain ⟨canonical, le⟩ := canonical_of_unpack hx
  rw [Amounts, hx]
  exact .finite h canonical le

namespace Planar

variable {a b u : Planar} {j k : ℕ} {r s d p : ℚ}

theorem amounts_shortest : shortest.Amounts (8796093 * 2 ^ (-43 : ℤ)) := by
  exact_mod_cast Single.amounts_of_unpack (x := shortest) (m := 8796093) (h := by norm_num) rfl

/-! ### Bounds -/

/-- Both parts are numbers, and at most the power of two away from zero. -/
structure Within (a : Planar) (k : ℕ) : Prop where
  x : a.x.Within k
  y : a.y.Within k

namespace Within

theorem isFinite (h : a.Within k) (hk : k < 128) : a.isFinite = true := by
  rw [Planar.isFinite, h.x.isFinite hk, h.y.isFinite hk]
  rfl

theorem mono (h : a.Within j) (hle : j ≤ k) : a.Within k := ⟨h.x.mono hle, h.y.mono hle⟩

theorem add (h : a.Within k) (h' : b.Within k) (hk : k < 128) : (a + b).Within (k + 1) :=
  ⟨h.x.add h'.x hk, h.y.add h'.y hk⟩

theorem sub (h : a.Within k) (h' : b.Within k) (hk : k < 128) : (a - b).Within (k + 1) :=
  ⟨h.x.sub h'.x hk, h.y.sub h'.y hk⟩

theorem mul {t : Single} (h : a.Within j) (ht : t.Within k) (hj : j < 128) (hk : k < 128) :
    (a * t).Within (j + k) :=
  ⟨h.x.mul ht hj hk, h.y.mul ht hj hk⟩

theorem div {t : Single} (h : a.Within j) (ht : t.Means s) (hj : j < 128) (hs : |s| < 2 ^ 128)
    (hlow : 1 ≤ |s| * 2 ^ k) : (a / t).Within (j + k) :=
  ⟨h.x.div ht hj hs hlow, h.y.div ht hj hs hlow⟩

theorem perp (h : a.Within k) : a.perp.Within k := ⟨h.y.neg, h.x⟩

theorem lerp {t : Single} (h : a.Within k) (h' : b.Within k) (ht : t.Within 0) (hk : k < 126) :
    (a.lerp b t).Within (k + 2) :=
  (h.mono (Nat.le_succ k)).add ((h'.sub h (by omega)).mul ht (by omega) (by omega)) (by omega)

end Within

theorem within_zero (k : ℕ) : zero.Within k := ⟨Single.within_zero k, Single.within_zero k⟩

theorem within_right : right.Within 0 :=
  ⟨Single.amounts_one.means.within (by norm_num), Single.within_zero 0⟩

/-! ### Lengths -/

theorem of_normalize? (h : a.normalize? = some u) :
    a.length.isFinite = true ∧ ¬a.length ≤ shortest ∧ u = a / a.length := by
  rw [normalize?] at h
  split at h
  · cases h
  · next hlong =>
    simp only [Bool.or_eq_true, Bool.not_eq_eq_eq_not, Bool.not_true, decide_eq_true_eq,
      not_or, Bool.not_eq_false] at hlong
    exact ⟨hlong.1, hlong.2, (Option.some.inj h).symm⟩

theorem exists_length (hfinite : a.length.isFinite = true) (hlong : ¬a.length ≤ shortest) :
    ∃ d, a.length.Amounts d ∧ 1 / 2 ^ 20 ≤ d ∧ d < 2 ^ 128 := by
  obtain ⟨d, hd, hlt⟩ := Single.exists_means hfinite
  have hle : (8796093 : ℚ) * 2 ^ (-43 : ℤ) < d :=
    not_le.mp fun h => hlong ((hd.le_iff amounts_shortest.means).mpr h)
  have hlow : (1 : ℚ) / 2 ^ 20 ≤ d := le_trans (by norm_num) hle.le
  exact ⟨d, hd.amounts (le_trans (by norm_num) hlow), hlow, (le_abs_self d).trans_lt hlt⟩

theorem isFinite_of_length (h : a.length.isFinite = true) :
    a.x.isFinite = true ∧ a.y.isFinite = true := by
  obtain ⟨hx, hy⟩ := Single.isFinite_of_add (Single.isFinite_of_sqrt h)
  exact ⟨(Single.isFinite_of_mul hx).1, (Single.isFinite_of_mul hy).1⟩

/-- A square that is rounded falls short by a fixed share of it at most, or by next to nothing. -/
theorem Single.Means.exists_square {x : Single} (h : x.Means r) (hfinite : (x * x).isFinite = true) :
    ∃ q, (x * x).Amounts q ∧ r * r - (r * r / 2 ^ 24 + leastPlace) ≤ q := by
  have hr : |r| < 2 ^ 128 := h.isFinite_iff.mp (Single.isFinite_of_mul hfinite).1
  obtain ⟨q, hq, hrounds⟩ := h.mul h hr hr
  have hrounds := hrounds.rounds (mul_self_nonneg r)
  have hlt : q < 2 ^ 128 := (le_abs_self q).trans_lt (hq.isFinite_iff.mp hfinite)
  have herror := (abs_sub_le_iff.mp (hrounds.error_le (mul_self_nonneg r) hlt)).2
  have hmax : max (r * r / 2 ^ 24) (leastPlace / 2) ≤ r * r / 2 ^ 24 + leastPlace := by
    have hleast := leastPlace_pos
    have hsquare := mul_self_nonneg r
    exact max_le (by linarith) (by linarith [div_nonneg hsquare (by norm_num : (0 : ℚ) ≤ 2 ^ 24)])
  exact ⟨q, hq.amounts hrounds.nonneg, by linarith⟩

/-- What the exact length exceeds by a small share of it, the rounded length reaches. -/
theorem le_length (hfinite : a.length.isFinite = true) (hx : a.x.Means r) (hy : a.y.Means s)
    (hd : a.length.Means d) (hp : 1 / 2 ^ 50 ≤ p)
    (hlong : p * p ≤ (r * r + s * s) * (1 - 1 / 2 ^ 22)) : p - p / 2 ^ 24 ≤ d := by
  have hsum := Single.isFinite_of_sqrt hfinite
  obtain ⟨hxx, hyy⟩ := Single.isFinite_of_add hsum
  obtain ⟨q, hq, hqlow⟩ := Single.Means.exists_square hx hxx
  obtain ⟨q', hq', hqlow'⟩ := Single.Means.exists_square hy hyy
  obtain ⟨t, ht, hrounds⟩ := hq.add hq'
  have htlt : t < 2 ^ 128 := Stands.lt_of_isFinite ht hsum
  obtain ⟨d', hd', hroot⟩ := ht.sqrt htlt
  obtain rfl : d' = d := hd'.means.eq hd
  have hleast : leastPlace ≤ 1 / 2 ^ 140 := by norm_num [leastPlace]
  have hpp : 1 / 2 ^ 100 ≤ p * p := by nlinarith
  have hlarge : 1 / 2 ^ 100 ≤ r * r + s * s := by nlinarith
  have hqq : (r * r + s * s) * (1 - 1 / 2 ^ 23) ≤ q + q' := by nlinarith
  have hsquare : p * p ≤ t := by
    have hnear := (abs_sub_le_iff.mp (hrounds.near htlt (by
      norm_num [leastPlace]
      nlinarith))).2
    nlinarith
  have hnonneg : 0 ≤ p := le_trans (by norm_num) hp
  obtain ⟨p', hp'⟩ := exists_rounds hnonneg
  have hreached := hroot.ge p p' hnonneg hsquare hp'
  have hlt : d' < 2 ^ 128 := Stands.lt_of_isFinite hd' hfinite
  have hnear := hp'.near (hreached.trans_lt hlt) (by
    norm_num [leastPlace]
    linarith)
  linarith [(abs_sub_le_iff.mp hnear).2]

theorem Within.length (h : a.Within k) (hfinite : a.length.isFinite = true) (hk : k < 127) :
    a.length.Within (k + 1) := by
  have hsquare : ∀ {x : Single}, x.Within k → ∃ q, (x * x).Amounts q ∧ q ≤ 2 ^ (k + k) := by
    rintro x ⟨r, hr, hle⟩
    have hlt := Single.abs_lt_max hle (by omega)
    obtain ⟨q, hq, hrounds⟩ := hr.mul hr hlt hlt
    have hbound : |r * r| ≤ 2 ^ (k + k) := by
      rw [abs_mul, pow_add]
      exact mul_le_mul hle hle (abs_nonneg r) (by positivity)
    exact ⟨q, hq.amounts (hrounds.rounds (mul_self_nonneg r)).nonneg,
      (le_abs_self q).trans (hrounds.abs_le hbound)⟩
  have hsum := Single.isFinite_of_sqrt hfinite
  obtain ⟨q, hq, hqle⟩ := hsquare h.x
  obtain ⟨q', hq', hqle'⟩ := hsquare h.y
  obtain ⟨t, ht, hrounds⟩ := hq.add hq'
  obtain ⟨d, hd, hroot⟩ := ht.sqrt (Stands.lt_of_isFinite ht hsum)
  have hqq : 0 ≤ q + q' := add_nonneg (Stands.nonneg hq) (Stands.nonneg hq')
  have htle : t ≤ 2 ^ (k + k + 1) := by
    refine (le_abs_self t).trans ((hrounds.roundsTo hqq).abs_le ?_)
    rw [abs_of_nonneg hqq, pow_succ]
    linarith
  have hpower : Rounds (2 ^ (k + 1)) (2 ^ (k + 1)) :=
    (fits_two_pow (k + 1)).rounds (pow_le_pow_right₀ (by norm_num) (by omega))
  have hle : t ≤ 2 ^ (k + 1) * 2 ^ (k + 1) := by
    rw [← pow_add]
    exact htle.trans (pow_le_pow_right₀ (by norm_num) (by omega))
  refine hd.means.within ?_
  rw [abs_of_nonneg (Stands.nonneg hd)]
  exact hroot.le _ _ (by positivity) hle hpower

/-- What is left of a vector that has a direction. -/
theorem within_of_normalize? (h : a.normalize? = some u) : u.Within 1 := by
  obtain ⟨hfinite, hlong, rfl⟩ := of_normalize? h
  obtain ⟨d, hd, hlow, hlt⟩ := exists_length hfinite hlong
  obtain ⟨hx, hy⟩ := isFinite_of_length hfinite
  obtain ⟨r, hr, hrlt⟩ := Single.exists_means hx
  obtain ⟨s, hs, hslt⟩ := Single.exists_means hy
  have hdpos : 0 < d := lt_of_lt_of_le (by norm_num) hlow
  have hpart : ∀ q : ℚ, q * q ≤ r * r + s * s → |q| ≤ 2 * d := by
    intro q hq
    by_contra hbeyond
    have hbeyond := not_le.mp hbeyond
    have hsquare : 3 / 4 * |q| * (3 / 4 * |q|) ≤ (r * r + s * s) * (1 - 1 / 2 ^ 22) := by
      have habs := abs_mul_abs_self q
      nlinarith
    have hreached := le_length hfinite hr hs hd.means (p := 3 / 4 * |q|) (by linarith) hsquare
    linarith
  have hbound : ∀ {x : Single} {q : ℚ}, x.Means q → |q| < 2 ^ 128 → |q| ≤ 2 * d →
      (x / a.length).Within 1 := by
    intro x q hq hqlt hle
    obtain ⟨t, ht, hrounds⟩ := hq.div hd.means hqlt (by rwa [abs_of_pos hdpos]) hdpos.ne'
    refine ht.within (hrounds.abs_le ?_)
    rw [abs_div, abs_of_pos hdpos, div_le_iff₀ hdpos]
    linarith
  exact ⟨hbound hr hrlt (hpart r (by nlinarith)), hbound hs hslt (hpart s (by nlinarith))⟩

theorem within_getD_normalize? (a : Planar) : (a.normalize?.getD right).Within 1 := by
  cases h : a.normalize? with
  | none => exact within_right.mono (Nat.zero_le 1)
  | some u => exact within_of_normalize? h

/-! ### Headings -/

theorem Within.rotate (h : a.Within 1) {degrees : Single} (hfinite : degrees.isFinite = true) :
    (a.rotate degrees).Within 3 := by
  have hradians := Single.isFinite_toRadians hfinite
  have hsine := Single.within_sine hradians
  have hcosine := Single.within_cosine hradians
  have hproduct : ∀ {x y : Single}, x.Within 1 → y.Within 1 → (x * y).Within 2 :=
    fun hx hy => hx.mul hy (by norm_num) (by norm_num)
  exact ⟨(hproduct h.x hcosine).sub (hproduct h.y hsine) (by norm_num),
    (hproduct h.x hsine).add (hproduct h.y hcosine) (by norm_num)⟩

end Planar

theorem Aim.within_direction (w : Surroundings) (aim : Aim) : (aim.direction w).Within 1 := by
  have hforward := w.forward.within_getD_normalize?
  cases aim with
  | forward => exact hforward
  | target =>
      rw [direction]
      cases h : w.target.bind fun target => (target - w.position).normalize? with
      | none => exact hforward
      | some u =>
          obtain ⟨target, _, hu⟩ := Option.bind_eq_some_iff.mp h
          exact Planar.within_of_normalize? hu

end Choreo
