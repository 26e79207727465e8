import Choreo.Proofs.Leaf.Places
import Choreo.Proofs.Magazine

/-!
# Finite writes

What a leaf writes is finite where its parameters are and nothing overflows on the way. Headings do not
overflow, for they have about unit length, and neither does what is handed on as authored. A velocity is a
way divided by the length of a step, and the angle of a bullet is interpolated: those are finite where the
ways are not too long for the steps and the angles not too far apart.
-/

namespace Choreo

/-- Every number that is written is finite. -/
def Write.isFinite : Write → Bool
  | velocity v => v.isFinite
  | groundSpeed speed => speed.isFinite
  | jump impulse => impulse.isFinite
  | shot aim => aim.isFinite
  | bullet direction => direction.isFinite
  | toss direction speed => direction.isFinite && speed.isFinite
  | strike direction => direction.isFinite

/-- Nothing is computed for the write but a heading. -/
def Write.isPlain : Write → Bool
  | velocity _ | bullet _ => false
  | _ => true

namespace Planar

theorem isFinite_zero : zero.isFinite = true := (within_zero 0).isFinite (by norm_num)

end Planar

theorem Aim.isFinite_heading (aim : Aim) (w : Surroundings) {angle : Single}
    (h : angle.isFinite = true) : ((aim.direction w).rotate angle).isFinite = true :=
  ((aim.within_direction w).rotate h).isFinite (by norm_num)

/-! ### Moving -/

theorem Planar.within_normalizeOrZero (a : Planar) : a.normalizeOrZero.Within 1 := by
  rw [normalizeOrZero]
  cases h : a.normalize? with
  | none => exact within_zero 1
  | some u => exact within_of_normalize? h

namespace MoveBy

variable {a : MoveBy} {d t : ℚ} {j k : ℕ}

/-- The way is not too long, and has a direction. -/
structure Bounded (a : MoveBy) (k : ℕ) : Prop where
  direction : a.direction.Within 1
  distance : a.distance.Within (k + 1)

theorem bounded_start {b : MoveBy} {w : Surroundings} (h : a.init w = .ok b)
    (hvector : a.vector.Within k) (hk : k < 127) : b.start.Bounded k := by
  obtain ⟨_, _, _, rfl⟩ := ok_of_init h
  refine ⟨a.vector.within_normalizeOrZero, ?_⟩
  simp only [start]
  split
  · exact Single.within_zero _
  · next hdirection =>
    cases hunit : a.vector.normalize? with
    | none =>
        rw [Planar.normalizeOrZero, hunit] at hdirection
        exact absurd (by decide +kernel) hdirection
    | some u => exact hvector.length (Planar.of_normalize? hunit).1 hk

theorem Bounded.update (h : a.Bounded k) (m : Moment) : (a.update m).1.Bounded k := by
  rw [MoveBy.update]
  simp only
  split_ifs <;> exact ⟨h.direction, h.distance⟩

theorem isFinite_update (hway : a.OnTheWay d t) (h : a.Bounded k) {m : Moment}
    (hlow : ∀ s, m.step.Amounts s → 0 < s → 1 ≤ s * 2 ^ j) (hjk : j + k < 125) :
    ∀ x ∈ (a.update m).2, x.isFinite = true := by
  obtain ⟨r, hr, hrounds⟩ := exists_remaining hway
  have hnonneg : 0 ≤ r := Stands.nonneg hr
  have hrd : r ≤ d := hrounds.mono (sub_nonneg.mpr hway.le) (by linarith [hway.travelled.nonneg])
    (Stands.rounds hway.distance.amounts)
  have hd : d ≤ 2 ^ (k + 1) := by
    obtain ⟨d', hd', hle⟩ := h.distance
    obtain rfl : d' = d := hd'.eq hway.distance.amounts.means
    exact (le_abs_self d').trans hle
  have hzero : (Write.velocity .zero).isFinite = true := Planar.isFinite_zero
  -- A part of the way over the step.
  have hvelocity : m.hasDuration = true → ∀ {x : Single} {q : ℚ}, x.Amounts q → q ≤ r →
      (Write.velocity (a.direction * (x / m.step))).isFinite = true := by
    intro hstep x q hq hqr
    obtain ⟨s, hs, hspos, hsmax⟩ := m.exists_step hstep
    have hwithin : x.Within (k + 1) := hq.means.within (by
      rw [abs_of_nonneg (Stands.nonneg hq)]
      exact hqr.trans (hrd.trans hd))
    have hquotient := hwithin.div hs.means (by omega) (by rwa [abs_of_pos hspos])
      (by rw [abs_of_pos hspos]; exact hlow s hs hspos)
    exact (h.direction.mul hquotient (by norm_num) (by omega)).isFinite (by omega)
  rw [MoveBy.update]
  simp only
  split_ifs with hnothing hstep harrived
  · simpa using hzero
  · simpa using hzero
  · simpa using hvelocity (by simpa using hstep) hr le_rfl
  · have hstep : m.hasDuration = true := by simpa using hstep
    obtain ⟨v, hv, hvpos, hvlt⟩ := Single.exists_amounts_of_isPositiveFinite hway.speed
    obtain ⟨s, hs, hspos, hslt⟩ := m.exists_step hstep
    obtain ⟨q, hq, hproduct⟩ := hv.means.mul hs.means (by rwa [abs_of_pos hvpos])
      (by rwa [abs_of_pos hspos])
    have hq := hq.amounts (hproduct.rounds (by positivity)).nonneg
    obtain ⟨u, hu, hle⟩ : ∃ u, (a.speed * m.step + arrival).Amounts u ∧ q ≤ u := by
      obtain ⟨c, hc, _⟩ := Single.exists_amounts_of_isPositiveFinite (x := arrival)
        (by decide +kernel)
      obtain ⟨u, hu, hsum⟩ := hq.add hc
      exact ⟨u, hu, (Stands.rounds hq).mono (Stands.nonneg hq)
        (le_add_of_nonneg_right (Stands.nonneg hc)) hsum⟩
    have hshort : u < r := not_le.mp fun h => harrived ((hr.le_iff hu).mpr h)
    simpa using hvelocity hstep hq (hle.trans hshort.le)

end MoveBy

/-! ### Following -/

section Following

variable {j k : ℕ} {m : Moment} {w : Surroundings}
  (hlow : ∀ s, m.step.Amounts s → 0 < s → 1 ≤ s * 2 ^ j) (hscroll : w.scroll.Within k)
  (hjk : j + k ≤ 116)
include hlow hscroll hjk

theorem Follower.isFinite_advance {f : Follower} {c : Curve} {offset : Planar} {gain : Single} {t : ℚ}
    (hc : c.Bounded k) (hoffset : offset.Within k) (hon : f.OnPath t) (hnear : f.Near k)
    (hgain : gain.Unsigned) (hstep : m.hasDuration = true) :
    (f.advance c offset (f.t + gain) m.step).1.Near k ∧
      (Write.velocity ((f.advance c offset (f.t + gain) m.step).2 + w.scroll)).isFinite = true := by
  obtain ⟨s, hs, hpos, hmax⟩ := m.exists_step hstep
  obtain ⟨t', hon', _⟩ := exists_onPath_advance hon hgain c offset m.step
  obtain ⟨hnear', hvelocity⟩ :=
    hnear.advance hc hoffset (by omega) hs hmax (hlow s hs hpos) hon'
  exact ⟨hnear', (hvelocity.add (hscroll.mono (by omega)) (by omega)).isFinite (by omega)⟩

theorem FollowPath.isFinite_update {a : FollowPath} {t : ℚ}
    (hspeed : a.speed.isPositiveFinite = true) (hon : a.follower.OnPath t)
    (hpath : a.path.Within k) (hoffset : a.offset.Within k) (hnear : a.follower.Near k) :
    (a.update m w).1.follower.Near k ∧ ∀ x ∈ (a.update m w).2, x.isFinite = true := by
  have hzero : ∀ x ∈ [Write.velocity .zero], x.isFinite = true :=
    List.forall_mem_singleton.mpr Planar.isFinite_zero
  have hc : Curve.Bounded a.path.point k := fun t r ht => hpath.point ht (by omega)
  rw [update]
  split
  · exact ⟨hnear, hzero⟩
  split
  · exact ⟨⟨hnear.origin, hnear.last⟩, hzero⟩
  simp only
  split
  · exact ⟨⟨hnear.origin, hnear.last⟩, hzero⟩
  · next hstep hrate =>
    have hstep : m.hasDuration = true := by simpa using hstep
    obtain ⟨r, hr, _⟩ := exists_speed a.path.point a.follower.t Curve.defaultStep
    obtain ⟨hnear', hfinite⟩ := Follower.isFinite_advance hlow hscroll hjk hc hoffset hon hnear
      (unsigned_gain hspeed hstep ⟨r, hr⟩ hrate) hstep
    exact ⟨hnear', by simpa using hfinite⟩

theorem FollowBezier.isFinite_update {a : FollowBezier} {t : ℚ} (hspeed : a.curveSpeed.Unsigned)
    (hcurves : 0 < a.path.curves.length) (hon : a.follower.OnPath t)
    (hpath : (Path.bezier a.path).Within k) (hoffset : a.offset.Within k)
    (hnear : a.follower.Near k) :
    (a.update m w).1.follower.Near k ∧ ∀ x ∈ (a.update m w).2, x.isFinite = true := by
  have hzero : ∀ x ∈ [Write.velocity .zero], x.isFinite = true :=
    List.forall_mem_singleton.mpr Planar.isFinite_zero
  have hc : Curve.Bounded a.path.point k := fun t r ht => hpath.point ht (by omega)
  rw [update]
  split
  · exact ⟨hnear, hzero⟩
  split
  · exact ⟨⟨hnear.origin, hnear.last⟩, hzero⟩
  · next hstep =>
    have hstep : m.hasDuration = true := by simpa using hstep
    obtain ⟨hnear', hfinite⟩ := Follower.isFinite_advance hlow hscroll hjk hc hoffset hon hnear
      (unsigned_gain hspeed hcurves hstep) hstep
    exact ⟨hnear', by simpa using hfinite⟩

end Following

/-! ### Shooting -/

theorem Single.Amounts.toUInt32_le {x : Single} {r : ℚ} (h : x.Amounts r) :
    (x.toUInt32.toNat : ℚ) ≤ r := by
  rcases lt_or_ge r (2 ^ 32) with hr | hr
  · rw [h.toUInt32 hr]
    exact Nat.floor_le (Stands.nonneg h)
  · have hsize : (x.toUInt32.toNat : ℚ) ≤ 2 ^ 32 := by exact_mod_cast x.toUInt32.toNat_lt.le
    exact hsize.trans hr

namespace Barrage

variable {a : Barrage} {t : ℚ} {index : ℕ}

/-- The angles of the first bullet and of the last are not too far apart. -/
structure Bounded (a : Barrage) : Prop where
  angleStart : a.angleStart.Within 125
  angleEnd : a.angleEnd.Within 125
  duration : a.duration.isFinite = true

/-- The last place of the schedule, as a single has it, and a place that is not beyond it. -/
structure Last (a : Barrage) (n : ℚ) (index : ℕ) : Prop where
  amounts : (Single.ofCount (a.count - 1)).Amounts n
  one_le : 1 ≤ n
  lt_max : n < 2 ^ 128
  le : ∀ i, Rounds index i → i ≤ n

theorem isFinite_angleOf (h : a.Bounded) (hlast : 1 < a.count → ∃ n, a.Last n index) :
    (a.angleOf index).isFinite = true := by
  rw [angleOf]
  split
  · exact h.angleStart.isFinite (by norm_num)
  · next hcount =>
    obtain ⟨n, hn⟩ := hlast (not_le.mp hcount)
    have hpos : 0 < n := one_pos.trans_le hn.one_le
    obtain ⟨i, hi, hile⟩ : ∃ i, (Single.ofCount index).Amounts i ∧ i ≤ n := by
      rcases Nat.eq_zero_or_pos index with rfl | hindex
      · exact ⟨0, Single.amounts_zero, hpos.le⟩
      · obtain ⟨i, hi, hrounds⟩ := Single.amounts_ofCount hindex
        exact ⟨i, hi, hn.le i hrounds⟩
    obtain ⟨f, hf, hrounds⟩ := hi.means.div hn.amounts.means
      (by rw [abs_of_nonneg (Stands.nonneg hi)]; exact hile.trans_lt hn.lt_max)
      (by rw [abs_of_pos hpos]; exact hn.lt_max) hpos.ne'
    have hfraction : (Single.ofCount index / Single.ofCount (a.count - 1)).Within 0 := by
      refine hf.within (hrounds.abs_le ?_)
      rw [abs_of_nonneg (div_nonneg (Stands.nonneg hi) hpos.le), pow_zero]
      exact (div_le_one hpos).mpr hile
    have hspread := (h.angleEnd.sub h.angleStart (by norm_num)).mul hfraction (by norm_num)
      (by norm_num)
    exact ((h.angleStart.mono (by norm_num)).add hspread (by norm_num)).isFinite (by norm_num)

/-- The time that has passed comes to no more intervals than there are. -/
theorem le_of_lt_shotsDue (h : a.Bounded) {elapsed : Single} (ht : elapsed.Amounts t) {n : ℚ}
    (hn : (Single.ofCount (a.count - 1)).Amounts n) (hone : 1 ≤ n) (hmax : n < 2 ^ 128)
    (htimed : ¬(a.duration ≤ 0 ∨ a.count = 1)) (hindex : index < a.shotsDue elapsed) :
    (index : ℚ) ≤ n := by
  obtain ⟨d, hd, hdpos, hdlt⟩ := Single.exists_amounts_pos h.duration (not_or.mp htimed).1
  obtain ⟨c, hc, hcpos, _⟩ := Single.exists_amounts_of_isPositiveFinite (x := Moment.slack)
    (by decide +kernel)
  have hpos : 0 < n := one_pos.trans_le hone
  obtain ⟨i, hi, hquotient, hsign⟩ := hd.div hn hdpos hmax (Stands.ne_zero hn hpos)
  have hile : i ≤ d := by
    cases hquotient with
    | endless hendless _ => rcases hendless with h | h <;> linarith
    | rounds _ _ hrounds =>
        exact hrounds.mono (by positivity) (div_le_self hdpos.le hone) (Stands.rounds hd)
  obtain ⟨s, hs, hsum⟩ := ht.add hc
  have hcs : c ≤ s :=
    (Stands.rounds hc).mono hcpos.le (le_add_of_nonneg_left (Stands.nonneg ht)) hsum
  obtain ⟨passed, hpassed, _⟩ := hs.div hi (hcpos.trans_le hcs) (hile.trans_lt hdlt) hsign
  have hcut := (hpassed.lesser hn).toUInt32_le
  rw [shotsDue] at hindex
  split at hindex
  · exact absurd hindex (Nat.not_lt_zero _)
  · have hle := (Nat.cast_le (α := ℚ)).mpr (Nat.le_of_lt_succ hindex)
    exact hle.trans (hcut.trans (min_le_right _ _))

/-- No bullet comes due beyond the last place of the schedule. -/
theorem exists_last (h : a.Bounded) (ht : a.elapsed.Tally t) {m : Moment}
    (hindex : index < a.due m) (hcount : 1 < a.count) : ∃ n, a.Last n index := by
  obtain ⟨n, hn, hrounds⟩ := Single.amounts_ofCount (k := a.count - 1) (by omega)
  have hsize : ((a.count - 1 : ℕ) : ℚ) ≤ 2 ^ 32 := by
    have hlt : a.count < 2 ^ 32 := a.bulletCount.toNat_lt
    exact_mod_cast (by omega : a.count - 1 ≤ 2 ^ 32)
  have hone : 1 ≤ n := (Stands.rounds Single.amounts_one).mono zero_le_one
    (by exact_mod_cast (by omega : 1 ≤ a.count - 1)) hrounds
  have hmax : n ≤ 2 ^ 32 :=
    hrounds.mono (Nat.cast_nonneg _) hsize ((fits_two_pow 32).rounds (by norm_num))
  have hmax : n < 2 ^ 128 := hmax.trans_lt (by norm_num)
  refine ⟨n, hn, hone, hmax, fun i hi => ?_⟩
  have hall : index < a.count → i ≤ n := fun hlt =>
    hi.mono (Nat.cast_nonneg _) (by exact_mod_cast (by omega : index ≤ a.count - 1)) hrounds
  rw [due] at hindex
  split at hindex
  · exact hall hindex
  · by_cases htimed : a.duration ≤ 0 ∨ a.count = 1
    · rw [shotsDue, if_neg (by omega), if_pos htimed] at hindex
      exact hall hindex
    · exact hi.mono (Nat.cast_nonneg _)
        (le_of_lt_shotsDue h ht.amounts hn hone hmax htimed hindex) (Stands.rounds hn)

theorem isFinite_update (h : a.Bounded) (ht : a.elapsed.Tally t) (m : Moment) (w : Surroundings) :
    ∀ x ∈ (a.update m w).2, x.isFinite = true := by
  intro x hx
  cases hover : a.isOver with
  | true =>
      rw [update_of_isOver m w hover] at hx
      cases hx
  | false =>
      rw [update_of_not_isOver m w hover] at hx
      obtain ⟨index, hindex, rfl⟩ := List.mem_map.mp hx
      have hdue : index < a.due m := by
        rw [List.mem_range'_1] at hindex
        omega
      exact a.aim.isFinite_heading w (isFinite_angleOf h (exists_last h ht hdue))

end Barrage

/-! ### Leaves -/

namespace Leaf

variable {a b : Leaf} {j k : ℕ}

/-- What the leaf hands on as authored is finite. -/
def Plain : Leaf → Prop
  | jump a => a.impulse.isFinite = true
  | singleShot a => a.angle.isFinite = true
  | attack a => a.angle.isFinite = true
  | lob a => a.angle.isFinite = true ∧ a.speed.isFinite = true
  | walk a => a.speed.isFinite = true
  | _ => True

theorem plain_start {w : Surroundings} (h : a.init w = .ok b) (w' : Surroundings) :
    (b.start w').1.Plain ∧ ∀ x ∈ (b.start w').2, x.isFinite = true := by
  cases a with
  | jump a =>
      obtain ⟨b, hinit, rfl⟩ := Fault.ok_of_map h
      obtain ⟨_, himpulse, rfl⟩ := Jump.ok_of_init hinit
      exact ⟨himpulse, by simp [start]⟩
  | singleShot a =>
      obtain ⟨b, hinit, rfl⟩ := Fault.ok_of_map h
      obtain ⟨_, hangle, rfl⟩ := SingleShot.ok_of_init hinit
      exact ⟨hangle, by simp [start]⟩
  | attack a =>
      obtain ⟨b, hinit, rfl⟩ := Fault.ok_of_map h
      obtain ⟨_, hangle, rfl⟩ := Attack.ok_of_init hinit
      exact ⟨hangle, by simp [start]⟩
  | lob a =>
      obtain ⟨b, hinit, rfl⟩ := Fault.ok_of_map h
      obtain ⟨_, hangle, hspeed, rfl⟩ := Lob.ok_of_init hinit
      exact ⟨⟨hangle, (Bool.and_eq_true_iff.mp hspeed).1⟩, by simp [start]⟩
  | walk a =>
      obtain ⟨b, hinit, rfl⟩ := Fault.ok_of_map h
      obtain ⟨_, hspeed, rfl⟩ := Walk.ok_of_init hinit
      exact ⟨hspeed, List.forall_mem_singleton.mpr hspeed⟩
  | _ =>
      obtain ⟨b, _, rfl⟩ := Fault.ok_of_map h
      exact ⟨trivial, by simp [start]⟩

/-- What steers writes velocities alone. -/
theorem not_isPlain_of_steers (ha : a.steersVelocity = true) (m : Moment) (w : Surroundings) :
    ∀ x ∈ (a.update m w).2, x.isPlain = false := by
  have hvelocity : ∀ {x : Write} {v : Planar}, x ∈ [Write.velocity v] → x.isPlain = false := by
    intro x v hx
    rw [List.mem_singleton.mp hx]
    rfl
  cases a with
  | moveBy a =>
      intro x hx
      change x ∈ (a.update m).2 at hx
      rw [MoveBy.update] at hx
      simp only at hx
      split_ifs at hx <;> exact hvelocity hx
  | followPath a =>
      intro x hx
      change x ∈ (a.update m w).2 at hx
      rw [FollowPath.update] at hx
      simp only at hx
      split_ifs at hx <;> exact hvelocity hx
  | followBezier a =>
      intro x hx
      change x ∈ (a.update m w).2 at hx
      rw [FollowBezier.update] at hx
      simp only at hx
      split_ifs at hx <;> exact hvelocity hx
  | _ => cases ha

theorem Plain.update (h : a.Plain) (m : Moment) (w : Surroundings) :
    (a.update m w).1.Plain ∧ ∀ x ∈ (a.update m w).2, x.isPlain = true → x.isFinite = true := by
  have hsteers : a.steersVelocity = true →
      ∀ x ∈ (a.update m w).2, x.isPlain = true → x.isFinite = true := fun ha x hx hplain => by
    rw [not_isPlain_of_steers ha m w x hx] at hplain
    cases hplain
  cases a with
  | wait a => exact ⟨trivial, by simp [Leaf.update]⟩
  | moveBy a => exact ⟨trivial, hsteers rfl⟩
  | followPath a => exact ⟨trivial, hsteers rfl⟩
  | followBezier a => exact ⟨trivial, hsteers rfl⟩
  | barrage a =>
      refine ⟨trivial, fun x hx hplain => ?_⟩
      change x ∈ (a.update m w).2 at hx
      rw [Barrage.update_writes] at hx
      obtain ⟨index, _, rfl⟩ := List.mem_map.mp hx
      cases hplain
  | jump a =>
      change (jump a.update.1).Plain ∧ ∀ x ∈ a.update.2, _
      rw [Jump.update]
      split
      · exact ⟨h, by simp⟩
      · exact ⟨h, List.forall_mem_singleton.mpr fun _ => h⟩
  | singleShot a =>
      change (singleShot (a.update w).1).Plain ∧ ∀ x ∈ (a.update w).2, _
      rw [SingleShot.update]
      split
      · exact ⟨h, by simp⟩
      · exact ⟨h, List.forall_mem_singleton.mpr fun _ => a.aim.isFinite_heading w h⟩
  | attack a =>
      change (attack (a.update w).1).Plain ∧ ∀ x ∈ (a.update w).2, _
      rw [Attack.update]
      split
      · exact ⟨h, by simp⟩
      · exact ⟨h, List.forall_mem_singleton.mpr fun _ => a.aim.isFinite_heading w h⟩
  | lob a =>
      change (lob (a.update w).1).Plain ∧ ∀ x ∈ (a.update w).2, _
      rw [Lob.update]
      split
      · exact ⟨h, by simp⟩
      · refine ⟨h, List.forall_mem_singleton.mpr fun _ => ?_⟩
        exact Bool.and_eq_true_iff.mpr ⟨a.aim.isFinite_heading w h.1, h.2⟩
  | walk a => exact ⟨h, by simp [Leaf.update]⟩

/-- What is authored is within the power of two, and so are the angles of a barrage within another. -/
def Moderate (k : ℕ) : Leaf → Prop
  | moveBy a => a.vector.Within k
  | followPath a => a.path.Within k ∧ a.offset.Within k
  | followBezier a => (Path.bezier a.path).Within k ∧ a.offset.Within k
  | barrage a => a.angleStart.Within 125 ∧ a.angleEnd.Within 125
  | _ => True

/-- What the leaf computes its writes from is not too large. -/
def Bounded (k : ℕ) : Leaf → Prop
  | moveBy a => a.Bounded k
  | followPath a => a.path.Within k ∧ a.offset.Within k ∧ a.follower.Near k
  | followBezier a => (Path.bezier a.path).Within k ∧ a.offset.Within k ∧ a.follower.Near k
  | barrage a => a.Bounded
  | _ => True

theorem bounded_start {w w' : Surroundings} (h : a.init w = .ok b) (hmoderate : a.Moderate k)
    (hposition : w'.position.Within k) (hk : k < 117) : (b.start w').1.Bounded k := by
  cases a with
  | moveBy a =>
      obtain ⟨b, hinit, rfl⟩ := Fault.ok_of_map h
      exact MoveBy.bounded_start hinit hmoderate (by omega)
  | followPath a =>
      obtain ⟨b, hinit, rfl⟩ := Fault.ok_of_map h
      obtain ⟨_, _, _, rfl⟩ := FollowPath.ok_of_init hinit
      obtain ⟨hpath, hoffset⟩ := hmoderate
      exact ⟨hpath, hoffset, Follower.near_start (fun t r ht => hpath.point ht (by omega)) hoffset
        hk hposition⟩
  | followBezier a =>
      obtain ⟨b, hinit, rfl⟩ := Fault.ok_of_map h
      obtain ⟨_, _, _, rfl⟩ := FollowBezier.ok_of_init hinit
      obtain ⟨hpath, hoffset⟩ := hmoderate
      exact ⟨hpath, hoffset, Follower.near_start (fun t r ht => hpath.point ht (by omega)) hoffset
        hk hposition⟩
  | barrage a =>
      obtain ⟨b, hinit, rfl⟩ := Fault.ok_of_map h
      obtain ⟨_, _, _, hduration, rfl⟩ := Barrage.ok_of_init hinit
      exact ⟨hmoderate.1, hmoderate.2, hduration⟩
  | _ =>
      obtain ⟨b, _, rfl⟩ := Fault.ok_of_map h
      trivial

theorem Bounded.update (h : a.Bounded k) (hregular : a.Regular) (hplain : a.Plain) {m : Moment}
    {w : Surroundings} (hlow : ∀ s, m.step.Amounts s → 0 < s → 1 ≤ s * 2 ^ j)
    (hscroll : w.scroll.Within k) (hjk : j + k ≤ 116) :
    (a.update m w).1.Bounded k ∧ ∀ x ∈ (a.update m w).2, x.isFinite = true := by
  have hgiven := hplain.update m w
  have hplain' : (∀ x ∈ (a.update m w).2, x.isPlain = true) →
      ∀ x ∈ (a.update m w).2, x.isFinite = true := fun hall x hx => hgiven.2 x hx (hall x hx)
  cases a with
  | moveBy a =>
      obtain ⟨d, t, hway⟩ := hregular
      exact ⟨MoveBy.Bounded.update h m, MoveBy.isFinite_update hway h hlow (by omega)⟩
  | followPath a =>
      obtain ⟨hspeed, t, hon⟩ := hregular
      obtain ⟨hpath, hoffset, hnear⟩ := h
      obtain ⟨hnear', hfinite⟩ :=
        FollowPath.isFinite_update hlow hscroll hjk hspeed hon hpath hoffset hnear
      refine ⟨?_, hfinite⟩
      change Bounded k (followPath (a.update m w).1)
      have hauthored : (a.update m w).1.path = a.path ∧ (a.update m w).1.offset = a.offset := by
        rw [FollowPath.update_authored]
        exact ⟨rfl, rfl⟩
      rw [Bounded, hauthored.1, hauthored.2]
      exact ⟨hpath, hoffset, hnear'⟩
  | followBezier a =>
      obtain ⟨hspeed, hcurves, t, hon⟩ := hregular
      obtain ⟨hpath, hoffset, hnear⟩ := h
      obtain ⟨hnear', hfinite⟩ :=
        FollowBezier.isFinite_update hlow hscroll hjk hspeed hcurves hon hpath hoffset hnear
      refine ⟨?_, hfinite⟩
      change Bounded k (followBezier (a.update m w).1)
      have hauthored : (a.update m w).1.path = a.path ∧ (a.update m w).1.offset = a.offset := by
        rw [FollowBezier.update_authored]
        exact ⟨rfl, rfl⟩
      rw [Bounded, hauthored.1, hauthored.2]
      exact ⟨hpath, hoffset, hnear'⟩
  | barrage a =>
      obtain ⟨⟨t, ht⟩, _⟩ := hregular
      obtain ⟨s, i, hauthored⟩ := Barrage.update_authored (a := a) m w
      refine ⟨?_, Barrage.isFinite_update h ht m w⟩
      change (a.update m w).1.Bounded
      rw [hauthored]
      exact ⟨h.angleStart, h.angleEnd, h.duration⟩
  | wait a => exact ⟨trivial, by simp [Leaf.update]⟩
  | walk a => exact ⟨trivial, by simp [Leaf.update]⟩
  | jump a => exact ⟨trivial, hplain' (by cases h : a.requested <;> simp [Leaf.update, Jump.update, h, Write.isPlain])⟩
  | singleShot a => exact ⟨trivial, hplain' (by cases h : a.fired <;> simp [Leaf.update, SingleShot.update, h, Write.isPlain])⟩
  | attack a => exact ⟨trivial, hplain' (by cases h : a.done <;> simp [Leaf.update, Attack.update, h, Write.isPlain])⟩
  | lob a => exact ⟨trivial, hplain' (by cases h : a.done <;> simp [Leaf.update, Lob.update, h, Write.isPlain])⟩

end Leaf

end Choreo
