import Choreo.Proofs.Number.Signed

/-!
# Counting with singles

A counter of the interpreter is a single to which amounts are added. A sum is rounded, and where one part
is much smaller than the other nothing may be left of it: a counter swallows what is added to it, but
only from `2 ^ 24` times that on. All amounts are whole multiples of the least one, so a counter that
does not swallow goes on to whatever it has to come to.
-/

namespace Choreo

open Float.Model (Format UnpackedFloat)
open Float.Model.UnpackedFloat (Sign)

/-- The least amount there is. -/
def leastPlace : ℚ := 2 ^ (-149 : ℤ)

theorem leastPlace_pos : 0 < leastPlace := two_zpow_pos _

theorem Fits.leastPlace_le {x : ℚ} (h : Fits x) (hx : 0 < x) : leastPlace ≤ x := by
  obtain ⟨m, e, _, he, rfl⟩ := h
  have hplace := two_zpow_pos e
  have hm : (1 : ℚ) ≤ m := by
    have hne : m ≠ 0 := by
      rintro rfl
      simp at hx
    exact_mod_cast Nat.pos_of_ne_zero hne
  calc leastPlace
    _ ≤ 2 ^ e := zpow_le_zpow_right₀ (by norm_num) he
    _ = 1 * 2 ^ e := (one_mul _).symm
    _ ≤ m * 2 ^ e := by gcongr

theorem rounds_leastPlace : Rounds leastPlace leastPlace := by
  refine Fits.rounds ⟨1, -149, by norm_num, le_rfl, ?_⟩ ?_
  · rw [Nat.cast_one, one_mul, leastPlace]
  · exact zpow_le_zpow_right₀ (n := 128) (by norm_num) (by norm_num)

/-- What a sum swallows is less than half a unit in its last place. -/
theorem Rounds.le_of_absorbed {x d : ℚ} (h : Rounds (x + d) x) (hx : 0 ≤ x) (hmax : x < 2 ^ 128)
    (hd : 0 < d) (hfits : Fits d) : 2 ^ 24 * d ≤ x := by
  obtain ⟨m, hm, hvalue⟩ := h
  have hplace := two_zpow_pos (lastPlace (x + d))
  have hkept : x = m * 2 ^ lastPlace (x + d) := by
    rcases min_choice ((m : ℚ) * 2 ^ lastPlace (x + d)) (2 ^ 128) with hmin | hmin
    · rwa [hmin] at hvalue
    · rw [hmin] at hvalue
      exact absurd hvalue hmax.ne
  have hhalf : d ≤ 2 ^ lastPlace (x + d) / 2 := by
    have hnear := hm.le_add
    rw [div_le_iff₀ hplace, add_mul, ← hkept] at hnear
    linarith
  rcases (neg_le_lastPlace (x + d)).eq_or_lt with hleast | hlarge
  · have hsome := hfits.leastPlace_le hd
    rw [← hleast] at hhalf
    exact absurd (hsome.trans hhalf) (not_le.mpr (half_lt_self leastPlace_pos))
  · have hfull : ((2 ^ 23 : ℕ) : ℚ) ≤ m := by
      exact_mod_cast hm.le_mantissa (by linarith) hlarge
    calc 2 ^ 24 * d
      _ ≤ 2 ^ 24 * (2 ^ lastPlace (x + d) / 2) := by gcongr
      _ = (2 ^ 23 : ℕ) * 2 ^ lastPlace (x + d) := by push_cast; ring
      _ ≤ m * 2 ^ lastPlace (x + d) := by gcongr
      _ = x := hkept.symm

theorem Canonical.eq {m m' : ℕ} {e e' : ℤ} (h : Canonical m e) (h' : Canonical m' e')
    (hsame : (m : ℚ) * 2 ^ e = m' * 2 ^ e') : m = m' ∧ e = e' := by
  rcases lt_trichotomy e e' with hlt | rfl | hgt
  · exact absurd hsame (h.lt_of_exponent_lt h' hlt).ne
  · exact ⟨by exact_mod_cast mul_right_cancel₀ (two_zpow_pos e).ne' hsame, rfl⟩
  · exact absurd hsame (h'.lt_of_exponent_lt h hgt).ne'

/-- Apart from the negative zero, there is one single for each amount. -/
theorem Stands.unpacked_eq {u v : UnpackedFloat} {r s : ℚ} (hu : Stands u r) (hv : Stands v s)
    (hsame : r = s) (hu' : u ≠ .zero .negative) (hv' : v ≠ .zero .negative) : u = v := by
  cases hu with
  | zero sign =>
      obtain rfl : sign = .positive := by cases sign <;> simp_all
      cases hv with
      | zero sign' => cases sign' <;> simp_all
      | @finite m e hm =>
          have hpos := two_zpow_pos e
          exact absurd hsame (by positivity : (0 : ℚ) < m * 2 ^ e).ne
      | infinity => norm_num at hsame
  | @finite m e hm canonical le =>
      have hpos := two_zpow_pos e
      have hlt := Stands.lt_of_finite canonical le
      cases hv with
      | zero => exact absurd hsame (by positivity : (0 : ℚ) < m * 2 ^ e).ne'
      | finite hm' canonical' le' =>
          obtain ⟨rfl, rfl⟩ := canonical.eq canonical' hsame
          rfl
      | infinity => exact absurd hsame hlt.ne
  | infinity =>
      cases hv with
      | zero => norm_num at hsame
      | finite hm canonical le => exact absurd hsame.symm (Stands.lt_of_finite canonical le).ne
      | infinity => rfl

/-- Added to what is not a negative zero, an amount does not make one. -/
theorem Stands.add_ne_negative {u v : UnpackedFloat} {r s : ℚ} (hu : Stands u r) (hv : Stands v s)
    (hu' : u ≠ .zero .negative) :
    UnpackedFloat.unpack .binary32 (UnpackedFloat.pack .binary32
      (UnpackedFloat.add .binary32 u v)) ≠ .zero .negative := by
  obtain ⟨t, ht, hrounds⟩ := stands_add hu hv
  rcases hu.nonneg.eq_or_lt with hzero | hpos
  · have hplus : u = .zero .positive :=
      hu.unpacked_eq (Stands.zero .positive) hzero.symm hu' (by simp)
    subst hplus
    rcases hv.nonneg.eq_or_lt with hzero' | hpos'
    · cases hv with
      | zero sign => cases sign <;> exact fun h => by cases h
      | @finite m e hm =>
          have hplace := two_zpow_pos e
          exact absurd hzero' (by positivity : (0 : ℚ) < m * 2 ^ e).ne
      | infinity => norm_num at hzero'
    · have hle : s ≤ t :=
        hv.rounds.mono hv.nonneg (le_add_of_nonneg_left hu.nonneg) hrounds
      exact ht.ne_zero (hpos'.trans_le hle)
  · have hle : r ≤ t := hu.rounds.mono hu.nonneg (le_add_of_nonneg_right hv.nonneg) hrounds
    exact ht.ne_zero (hpos.trans_le hle)

namespace Single

variable {x y : Single} {r s : ℚ}

theorem eq_of_unpack_eq (h : x.toModel.unpack = y.toModel.unpack) : x = y := by
  have hrepack : ∀ z : Single, (⟨Float32.Model.pack z.toModel.unpack⟩ : Single) = z :=
    fun z => Float32.ofBits_toBits z
  rw [← hrepack x, h, hrepack]

/-- The number of least amounts in a single. -/
def units (x : Single) : ℕ :=
  match x.toModel.unpack with
  | .finite _ m e _ => m * 2 ^ (e + 149).toNat
  | .infinity _ => 2 ^ 277
  | _ => 0

theorem Amounts.units_eq (h : x.Amounts r) : (x.units : ℚ) * leastPlace = r := by
  change Stands x.toModel.unpack r at h
  rw [units, leastPlace]
  generalize x.toModel.unpack = u at h
  cases h with
  | zero => simp
  | @finite m e hm canonical le =>
      have hleast := canonical.le
      have hpow : (2 : ℚ) ^ e = 2 ^ (e + 149).toNat * 2 ^ (-149 : ℤ) := two_zpow_of_eq (by omega)
      simp only
      rw [hpow]
      push_cast
      ring
  | infinity =>
      simp only
      rw [Nat.cast_pow, Nat.cast_ofNat, ← zpow_natCast, ← two_zpow_add]
      norm_num

theorem units_le_iff (h : x.Amounts r) (h' : y.Amounts s) : x.units ≤ y.units ↔ r ≤ s := by
  rw [← h.units_eq, ← h'.units_eq, mul_le_mul_iff_left₀ leastPlace_pos, Nat.cast_le]

/-- Two amounts are a least amount apart, or more. -/
theorem Amounts.leastPlace_le_sub (h : x.Amounts r) (h' : y.Amounts s) (hlt : r < s) :
    leastPlace ≤ s - r := by
  have hunits : x.units + 1 ≤ y.units := by
    by_contra hge
    exact hlt.not_ge ((units_le_iff h' h).mp (by omega))
  have hcast : (x.units : ℚ) + 1 ≤ y.units := by exact_mod_cast hunits
  have hplace := leastPlace_pos
  rw [← h.units_eq, ← h'.units_eq, ← sub_mul]
  nlinarith

theorem units_le_max (h : x.Amounts r) : x.units ≤ 2 ^ 277 := by
  have hendless : (1 / 0 : Single).Amounts (2 ^ 128) := Stands.infinity
  exact (units_le_iff h hendless).mpr (Stands.le_max h)

theorem exists_amounts_of_isPositiveFinite (h : x.isPositiveFinite = true) :
    ∃ r, x.Amounts r ∧ 0 < r ∧ r < 2 ^ 128 := by
  obtain ⟨hfinite, hpos⟩ := Bool.and_eq_true_iff.mp h
  obtain ⟨r, hr⟩ := exists_amounts (le_of_lt (of_decide_eq_true hpos))
  exact ⟨r, hr, (amounts_zero.lt_iff hr).mp (of_decide_eq_true hpos),
    Stands.lt_of_isFinite hr hfinite⟩

/-- A single counts exactly up to `2 ^ 24`. -/
theorem amounts_ofCount_of_le {k : ℕ} (hpos : 0 < k) (hk : k ≤ 2 ^ 24) : (ofCount k).Amounts k := by
  obtain ⟨t, ht, hrounds⟩ := amounts_ofCount hpos
  have hmax : (k : ℚ) ≤ 2 ^ 128 := by exact_mod_cast hk.trans (by norm_num)
  have hkept := (fits_natCast hk).rounds hmax
  rwa [hrounds.eq (Nat.cast_nonneg k) hkept] at ht

theorem amounts_one : (1 : Single).Amounts 1 := by
  have hone : ofCount 1 = 1 := by decide +kernel
  have hamounts := amounts_ofCount_of_le one_pos (by norm_num)
  rw [hone] at hamounts
  exact_mod_cast hamounts

theorem Amounts.greater (h : x.Amounts r) (h' : y.Amounts s) : (x.greater y).Amounts (max r s) := by
  have hnumber : x.isNaN = false := Stands.isNaN_eq_false h
  rw [Single.greater, hnumber, if_neg Bool.false_ne_true]
  split
  · next hlt => rwa [max_eq_right (lt_iff h h' |>.mp hlt).le]
  · next hle => rwa [max_eq_left (not_lt.mp fun hlt => hle ((lt_iff h h').mpr hlt))]

theorem isNaN_add (x : Single) (h : y.isNaN = true) : (x + y).isNaN = true := by
  have hsum : UnpackedFloat.add .binary32 x.toModel.unpack .notANumber = .notANumber := by
    cases x.toModel.unpack <;> rfl
  refine isNaN_iff.mpr ?_
  change UnpackedFloat.unpack .binary32 (UnpackedFloat.pack .binary32
    (UnpackedFloat.add .binary32 x.toModel.unpack y.toModel.unpack)) = .notANumber
  rw [isNaN_iff.mp h, hsum, unpack_pack_notANumber]

/-- The single stands for the number as no other does: it is not the negative zero. -/
structure Tally (x : Single) (r : ℚ) : Prop where
  amounts : x.Amounts r
  plain : x.toModel.unpack ≠ .zero .negative

theorem Amounts.tally (h : x.Amounts r) (hr : 0 < r) : x.Tally r := ⟨h, Stands.ne_zero h hr⟩

theorem tally_zero : (0 : Single).Tally 0 := by
  refine ⟨amounts_zero, fun h => ?_⟩
  have hplus : (0 : Single).toModel.unpack = .zero .positive := rfl
  rw [hplus] at h
  cases h

namespace Tally

theorem nonneg (h : x.Tally r) : 0 ≤ r := Stands.nonneg h.amounts

theorem eq (h : x.Tally r) (h' : y.Tally r) : x = y :=
  eq_of_unpack_eq (Stands.unpacked_eq h.amounts h'.amounts rfl h.plain h'.plain)

theorem add (h : x.Tally r) (h' : y.Amounts s) : ∃ t, (x + y).Tally t ∧ Rounds (r + s) t := by
  obtain ⟨t, ht, hrounds⟩ := h.amounts.add h'
  exact ⟨t, ⟨ht, Stands.add_ne_negative h.amounts h' h.plain⟩, hrounds⟩

theorem le_add (h : x.Tally r) (h' : y.Amounts s) : ∃ t, (x + y).Tally t ∧ r ≤ t := by
  obtain ⟨t, ht, hrounds⟩ := h.add h'
  have hle : r ≤ r + s := le_add_of_nonneg_right (Stands.nonneg h')
  exact ⟨t, ht, (Stands.rounds h.amounts).mono h.nonneg hle hrounds⟩

theorem eq_of_units_eq (h : x.Tally r) (h' : y.Tally s) (hunits : x.units = y.units) : x = y := by
  have hsame : r = s := by rw [← h.amounts.units_eq, hunits, h'.amounts.units_eq]
  exact h.eq (hsame ▸ h')

/-- A counter that swallows something stands at `2 ^ 24` times that at least. -/
theorem le_of_add_eq (h : x.Tally r) (h' : y.Amounts s) (hmax : r < 2 ^ 128) (hsame : x + y = x) :
    2 ^ 24 * s ≤ r := by
  obtain ⟨t, ht, hrounds⟩ := h.add h'
  rw [hsame] at ht
  rw [Stands.eq ht.amounts h.amounts] at hrounds
  rcases (Stands.nonneg h').eq_or_lt with rfl | hpos
  · simpa using h.nonneg
  · exact hrounds.le_of_absorbed h.nonneg hmax hpos (Stands.fits h')

/-- Nothing that is added to a counter takes it back, unless there is no number any more. -/
theorem add_unsigned (h : x.Tally r) (h' : y.Unsigned) :
    (x + y).isNaN = true ∨ ∃ t, (x + y).Tally t ∧ r ≤ t := by
  rcases h' with hnone | ⟨s, hs⟩
  · exact Or.inl (isNaN_add x (isNaN_iff.mpr hnone))
  · exact Or.inr (h.le_add hs)

theorem lesser (h : x.Tally r) (h' : y.Tally s) : (x.lesser y).Tally (min r s) := by
  refine ⟨h.amounts.lesser h'.amounts, ?_⟩
  rw [Single.lesser]
  split
  · exact h'.plain
  split
  · exact h'.plain
  · exact h.plain

end Tally

end Single

end Choreo
