import Choreo.Proofs.Number.Bounds

/-!
# Nearness

What an expression of singles comes to is near to what it comes to without rounding. Each operation adds a
share of its result to the errors of its operands, and hardly anything where the result is next to nothing.
-/

namespace Choreo

open Float.Model (Format UnpackedFloat)

theorem max_half_le {x : ℚ} (hx : 0 ≤ x) :
    max (x / 2 ^ 24) (leastPlace / 2) ≤ x / 2 ^ 24 + leastPlace := by
  have hleast := leastPlace_pos
  have hshare : 0 ≤ x / 2 ^ 24 := by positivity
  exact max_le (by linarith) (by linarith)

/-- Rounding does not add more than a share of a number to it. -/
theorem Rounds.le_add {x r : ℚ} (hx : 0 ≤ x) (h : Rounds x r) : r ≤ x + (x / 2 ^ 24 + leastPlace) := by
  have hadded := h.sub_le hx
  have hmax := max_half_le hx
  linarith

theorem RoundsTo.abs_le_add {q t : ℚ} (h : RoundsTo q t) :
    |t| ≤ |q| + (|q| / 2 ^ 24 + leastPlace) :=
  h.abs.le_add (abs_nonneg q)

theorem RoundsTo.error_le_of_lt {q t : ℚ} (h : RoundsTo q t) (ht : |t| < 2 ^ 128) :
    |t - q| ≤ |q| / 2 ^ 24 + leastPlace := by
  have hsame : ∀ {x r : ℚ}, 0 ≤ x → Rounds x r → |r| < 2 ^ 128 → |r - x| ≤ |x| / 2 ^ 24 + leastPlace := by
    intro x r hx hrounds hr
    rw [abs_of_nonneg hx]
    exact (hrounds.error_le hx ((le_abs_self r).trans_lt hr)).trans (max_half_le hx)
  rcases h with ⟨hpos, hrounds⟩ | ⟨hneg, hrounds⟩
  · exact hsame hpos hrounds ht
  · have hmirror := hsame (neg_nonneg.mpr hneg) hrounds (by rwa [abs_neg])
    rwa [neg_sub_neg, abs_sub_comm, abs_neg] at hmirror

/-- The error of a rounding, for a number in the range. -/
theorem RoundsTo.error_le {q t b : ℚ} (h : RoundsTo q t) (hq : |q| ≤ b) (hb : b ≤ 2 ^ 127) :
    |t - q| ≤ b / 2 ^ 24 + leastPlace := by
  have hpower : |q| ≤ 2 ^ 127 := hq.trans hb
  have herror := h.error_le_of_lt ((h.abs_le hpower).trans_lt (by norm_num))
  have hshare : |q| / 2 ^ 24 ≤ b / 2 ^ 24 := by gcongr
  linarith

namespace Single

variable {x y : Single} {r s e f : ℚ}

/-! ### The number that a single stands for -/

/-- The number that a finite single stands for. -/
def number (x : Single) : ℚ :=
  match x.toModel.unpack with
  | .finite sign m e _ => sign.apply m * 2 ^ e
  | _ => 0

theorem Means.number_eq (h : x.Means r) (hr : |r| < 2 ^ 128) : x.number = r := by
  have hfinite : x.toModel.unpack.isFinite = true := h.isFinite_iff.mpr hr
  change Denotes x.toModel.unpack r at h
  rw [number]
  generalize x.toModel.unpack = u at h hfinite
  cases h with
  | zero => rfl
  | finite => rfl
  | infinity => cases hfinite

theorem means_number (h : x.isFinite = true) : x.Means x.number := by
  obtain ⟨r, hr, hlt⟩ := exists_means h
  rwa [hr.number_eq hlt]

/-! ### Nearness -/

/-- The single is a number, and at most `e` away from `r`. -/
def About (x : Single) (r e : ℚ) : Prop := ∃ v, x.Means v ∧ |v - r| ≤ e

theorem Means.about (h : x.Means r) : x.About r 0 := ⟨r, h, by rw [sub_self, abs_zero]⟩

namespace About

variable {a b g : ℚ}

theorem mono (h : x.About r e) (hle : e ≤ f) : x.About r f := by
  obtain ⟨v, hv, hnear⟩ := h
  exact ⟨v, hv, hnear.trans hle⟩

theorem nonneg (h : x.About r e) : 0 ≤ e := by
  obtain ⟨v, _, hnear⟩ := h
  exact (abs_nonneg _).trans hnear

theorem abs_le {v : ℚ} (hnear : |v - r| ≤ e) (hr : |r| + e ≤ a) : |v| ≤ a := by
  have htriangle := abs_sub_abs_le_abs_sub v r
  linarith

theorem isFinite (h : x.About r e) (hr : |r| + e ≤ 2 ^ 127) : x.isFinite = true := by
  obtain ⟨v, hv, hnear⟩ := h
  exact hv.isFinite_iff.mpr ((abs_le hnear hr).trans_lt (by norm_num))

theorem number_sub_le (h : x.About r e) (hr : |r| + e ≤ 2 ^ 127) : |x.number - r| ≤ e := by
  obtain ⟨v, hv, hnear⟩ := h
  rwa [hv.number_eq ((abs_le hnear hr).trans_lt (by norm_num))]

theorem add (h : x.About r e) (h' : y.About s f) (hr : |r| + e ≤ a) (hs : |s| + f ≤ b)
    (hmax : a + b ≤ 2 ^ 127) (hle : e + f + ((a + b) / 2 ^ 24 + leastPlace) ≤ g) :
    (x + y).About (r + s) g := by
  obtain ⟨v, hv, hnear⟩ := h
  obtain ⟨w, hw, hnear'⟩ := h'
  have hva := abs_le hnear hr
  have hwb := abs_le hnear' hs
  have ha : 0 ≤ a := (abs_nonneg v).trans hva
  have hb : 0 ≤ b := (abs_nonneg w).trans hwb
  have hsum : |v + w| ≤ a + b := (abs_add_le v w).trans (add_le_add hva hwb)
  obtain ⟨t, ht, hrounds⟩ := hv.add hw (by linarith) (by linarith)
  refine ⟨t, ht, ?_⟩
  have herror := hrounds.error_le hsum hmax
  calc |t - (r + s)|
    _ = |(t - (v + w)) + ((v - r) + (w - s))| := by ring_nf
    _ ≤ |t - (v + w)| + (|v - r| + |w - s|) :=
        (abs_add_le _ _).trans (add_le_add le_rfl (abs_add_le _ _))
    _ ≤ g := by linarith

theorem sub (h : x.About r e) (h' : y.About s f) (hr : |r| + e ≤ a) (hs : |s| + f ≤ b)
    (hmax : a + b ≤ 2 ^ 127) (hle : e + f + ((a + b) / 2 ^ 24 + leastPlace) ≤ g) :
    (x - y).About (r - s) g := by
  obtain ⟨v, hv, hnear⟩ := h
  obtain ⟨w, hw, hnear'⟩ := h'
  have hva := abs_le hnear hr
  have hwb := abs_le hnear' hs
  have ha : 0 ≤ a := (abs_nonneg v).trans hva
  have hb : 0 ≤ b := (abs_nonneg w).trans hwb
  have hdiff : |v - w| ≤ a + b := (abs_sub v w).trans (add_le_add hva hwb)
  obtain ⟨t, ht, hrounds⟩ := hv.sub hw (by linarith) (by linarith)
  refine ⟨t, ht, ?_⟩
  have herror := hrounds.error_le hdiff hmax
  calc |t - (r - s)|
    _ = |(t - (v - w)) + ((v - r) - (w - s))| := by ring_nf
    _ ≤ |t - (v - w)| + (|v - r| + |w - s|) :=
        (abs_add_le _ _).trans (add_le_add le_rfl (abs_sub _ _))
    _ ≤ g := by linarith

theorem mul (h : x.About r e) (h' : y.About s f) (hr : |r| + e ≤ a) (hs : |s| + f ≤ b)
    (hamax : a ≤ 2 ^ 127) (hbmax : b ≤ 2 ^ 127) (hmax : a * b ≤ 2 ^ 127)
    (hle : e * b + a * f + (a * b / 2 ^ 24 + leastPlace) ≤ g) : (x * y).About (r * s) g := by
  have he := h.nonneg
  have hf := h'.nonneg
  obtain ⟨v, hv, hnear⟩ := h
  obtain ⟨w, hw, hnear'⟩ := h'
  have hva := abs_le hnear hr
  have hwb := abs_le hnear' hs
  have ha : 0 ≤ a := (abs_nonneg v).trans hva
  have hproduct : |v * w| ≤ a * b := by
    rw [abs_mul]
    exact mul_le_mul hva hwb (abs_nonneg w) ha
  obtain ⟨t, ht, hrounds⟩ := hv.mul hw (hva.trans_lt (by linarith)) (hwb.trans_lt (by linarith))
  refine ⟨t, ht, ?_⟩
  have herror := hrounds.error_le hproduct hmax
  have hfirst : |v - r| * |w| ≤ e * b := mul_le_mul hnear hwb (abs_nonneg w) he
  have hsecond : |r| * |w - s| ≤ a * f :=
    mul_le_mul (by linarith) hnear' (abs_nonneg _) ha
  calc |t - r * s|
    _ = |(t - v * w) + ((v - r) * w + r * (w - s))| := by ring_nf
    _ ≤ |t - v * w| + (|(v - r) * w| + |r * (w - s)|) :=
        (abs_add_le _ _).trans (add_le_add le_rfl (abs_add_le _ _))
    _ = |t - v * w| + (|v - r| * |w| + |r| * |w - s|) := by rw [abs_mul, abs_mul]
    _ ≤ g := by linarith

/-- Nothing is added. -/
theorem add_nothing (h : x.About r e) (hr : |r| + e ≤ 2 ^ 127) (hy : y.Means 0) :
    (x + y).About r e := by
  obtain ⟨v, hv, hnear⟩ := h
  have hlt : |v| < 2 ^ 128 := (abs_le hnear hr).trans_lt (by norm_num)
  obtain ⟨t, ht, hrounds⟩ := hv.add hy hlt (by norm_num)
  have hsame : v + 0 = v := by ring
  rw [hsame] at hrounds
  obtain rfl : t = v := hrounds.eq (Denotes.roundsTo hv)
  exact ⟨t, ht, hnear⟩

end About

end Single

end Choreo
