import Choreo.Proofs.Number.Amount
import Choreo.Proofs.Salvos

/-!
# How a barrage empties its magazine

The schedule of a timed barrage is made of singles: the whole intervals that have passed are cut to
the number there are, and one more bullet has come due. So it never goes back, and after twice the
duration it has come to its end, however its singles were rounded. Where it ends is another matter:
the number of intervals is a single as well, and one for which a single has no room is rounded, up or
down.
-/

namespace Choreo

namespace Barrage

variable {a : Barrage}

/-- How many bullets come due in all. -/
def magazine (a : Barrage) : ℕ :=
  if a.duration ≤ 0 ∨ a.count = 1 then a.count
  else (Single.ofCount (a.count - 1)).toUInt32.toNat + 1

/-! ### The pace of a timed barrage -/

/-- The numbers that a timed barrage goes by. -/
structure Pace (a : Barrage) where
  duration : ℚ
  intervals : ℚ
  interval : ℚ
  slack : ℚ
  timed : ¬(a.duration ≤ 0 ∨ a.count = 1)
  count_pos : 0 < a.count
  duration_amounts : a.duration.Amounts duration
  duration_pos : 0 < duration
  intervals_amounts : (Single.ofCount (a.count - 1)).Amounts intervals
  intervals_rounds : Rounds (a.count - 1 : ℕ) intervals
  one_le : 1 ≤ intervals
  intervals_lt : intervals < 2 ^ 32
  interval_amounts : (a.duration / Single.ofCount (a.count - 1)).Amounts interval
  interval_rounds : Rounds (duration / intervals) interval
  interval_lt : interval < 2 ^ 128
  interval_sign : (a.duration / Single.ofCount (a.count - 1)).toModel.unpack ≠ .zero .negative
  slack_amounts : Moment.slack.Amounts slack
  slack_pos : 0 < slack

/-- A count of intervals is rounded to at least one, and to no more than there can be. -/
theorem exists_intervals {k : ℕ} (hpos : 0 < k) (hmax : k ≤ 2 ^ 31) :
    ∃ n, (Single.ofCount k).Amounts n ∧ Rounds k n ∧ 1 ≤ n ∧ n ≤ 2 ^ 31 := by
  obtain ⟨n, hn, hrounds⟩ := Single.amounts_ofCount hpos
  have hone : Rounds 1 1 :=
    Fits.rounds (by exact_mod_cast fits_natCast (n := 1) (by norm_num)) (by norm_num)
  have hmost : Rounds (2 ^ 31) (2 ^ 31) :=
    Fits.rounds ⟨2 ^ 23, 8, by norm_num, by norm_num, by norm_num⟩ (by norm_num)
  exact ⟨n, hn, hrounds, hone.mono (by norm_num) (by exact_mod_cast hpos) hrounds,
    hrounds.mono (by positivity) (by exact_mod_cast hmax) hmost⟩

theorem natCast_le_max (hmax : a.count ≤ 2 ^ 31) : ((a.count - 1 : ℕ) : ℚ) ≤ 2 ^ 128 := by
  have hle : ((a.count - 1 : ℕ) : ℚ) ≤ 2 ^ 31 := by
    exact_mod_cast (Nat.sub_le _ _).trans hmax
  exact hle.trans (by norm_num)

theorem exists_pace (hcount : 0 < a.count) (hmax : a.count ≤ 2 ^ 31)
    (hfinite : a.duration.isFinite = true) (htimed : ¬(a.duration ≤ 0 ∨ a.count = 1)) :
    Nonempty a.Pace := by
  obtain ⟨hduration, hone⟩ := not_or.mp htimed
  obtain ⟨d, hd, hdpos, hdlt⟩ := Single.exists_amounts_pos hfinite hduration
  obtain ⟨n, hn, hnrounds, hnone, hnmax⟩ :=
    exists_intervals (by omega : 0 < a.count - 1) (by omega)
  obtain ⟨s, hs, hspos, _⟩ := Single.exists_amounts_pos (x := Moment.slack)
    (by decide +kernel) (by decide +kernel)
  obtain ⟨i, hi, hquotient, hsign⟩ := hd.div hn hdpos (hnmax.trans_lt (by norm_num))
    (Stands.ne_zero hn (by linarith))
  have hrounds : Rounds (d / n) i := by
    cases hquotient with
    | endless h _ => rcases h with h | h <;> linarith
    | rounds _ _ h => exact h
  have hile : i ≤ d :=
    hrounds.mono (by positivity) (div_le_self hdpos.le hnone) (Stands.rounds hd)
  exact ⟨{
    duration := d
    intervals := n
    interval := i
    slack := s
    timed := htimed
    count_pos := hcount
    duration_amounts := hd
    duration_pos := hdpos
    intervals_amounts := hn
    intervals_rounds := hnrounds
    one_le := hnone
    intervals_lt := hnmax.trans_lt (by norm_num)
    interval_amounts := hi
    interval_rounds := hrounds
    interval_lt := hile.trans_lt hdlt
    interval_sign := hsign
    slack_amounts := hs
    slack_pos := hspos }⟩

namespace Pace

variable (p : a.Pace)

theorem magazine_eq : a.magazine = ⌊p.intervals⌋₊ + 1 := by
  rw [magazine, if_neg p.timed, p.intervals_amounts.toUInt32 p.intervals_lt]

/-- A rounded number of intervals is a whole one. -/
theorem natCast_floor_intervals (hmax : a.count ≤ 2 ^ 31) : (⌊p.intervals⌋₊ : ℚ) = p.intervals := by
  rcases le_total (a.count - 1) (2 ^ 24) with hsmall | hlarge
  · have hkept : Rounds (a.count - 1 : ℕ) (a.count - 1 : ℕ) :=
      (fits_natCast hsmall).rounds (natCast_le_max hmax)
    rw [p.intervals_rounds.eq (by positivity) hkept, Nat.floor_natCast]
  · have hbound : Rounds (2 ^ 24) (2 ^ 24) :=
      Fits.rounds ⟨2 ^ 23, 1, by norm_num, by norm_num, by norm_num⟩ (by norm_num)
    refine (Stands.fits p.intervals_amounts).natCast_floor ?_
    exact hbound.mono (by norm_num) (by exact_mod_cast hlarge) p.intervals_rounds

/-- So many intervals have passed after so long. -/
def Reaches (time passed : ℚ) : Prop :=
  ∃ s, Rounds (time + p.slack) s ∧ Quotient s p.interval passed

variable {p} {t u passed passed' : ℚ}

theorem Reaches.mono (ht : 0 ≤ t) (hle : t ≤ u) (h : p.Reaches t passed)
    (h' : p.Reaches u passed') : passed ≤ passed' := by
  obtain ⟨s, hs, hpassed⟩ := h
  obtain ⟨s', hs', hpassed'⟩ := h'
  have hslack := p.slack_pos
  exact hpassed.mono hs.nonneg (hs.mono (by positivity) (by linarith) hs') hpassed'

/-- Rounding at most doubles an interval, so after twice the duration all of them have passed. -/
theorem Reaches.intervals_le {twice : ℚ} (htwice : Rounds (p.duration + p.duration) twice)
    (hle : twice ≤ t) (ht : Rounds t t) (h : p.Reaches t passed) : p.intervals ≤ passed := by
  obtain ⟨s, hs, hpassed⟩ := h
  have hone := p.one_le
  cases hpassed with
  | endless _ hendless =>
      have hlt := p.intervals_lt
      rw [hendless]
      linarith
  | rounds hsmax hpos hpassed =>
      have hts : t ≤ s := ht.mono ht.nonneg (by linarith [p.slack_pos]) hs
      have hdouble : twice = p.duration + p.duration :=
        htwice.double_eq p.duration_pos.le (Stands.fits p.duration_amounts)
          ((hle.trans hts).trans_lt hsmax)
      have hduration := p.duration_pos
      refine (Stands.rounds p.intervals_amounts).mono (by linarith) ?_ hpassed
      rw [le_div_iff₀ hpos]
      calc p.intervals * p.interval
        _ ≤ p.intervals * (2 * (p.duration / p.intervals)) := by
            gcongr
            exact p.interval_rounds.le_two_mul (by positivity)
        _ = p.duration + p.duration := by
            field_simp
            norm_num
        _ ≤ s := by linarith

variable (p)

theorem exists_shotsDue {x : Single} (hx : x.Amounts t) :
    ∃ passed, p.Reaches t passed ∧ a.shotsDue x = ⌊min passed p.intervals⌋₊ + 1 := by
  obtain ⟨s, hs, hsum⟩ := hx.add p.slack_amounts
  have hslack : p.slack ≤ s :=
    (Stands.rounds p.slack_amounts).mono p.slack_pos.le (by linarith [Stands.nonneg hx]) hsum
  obtain ⟨passed, hpassed, hquotient, _⟩ := hs.div p.interval_amounts
    (p.slack_pos.trans_le hslack) p.interval_lt p.interval_sign
  refine ⟨passed, ⟨s, hsum, hquotient⟩, ?_⟩
  rw [shotsDue, if_neg p.count_pos.ne', if_neg p.timed]
  simp only
  rw [(hpassed.lesser p.intervals_amounts).toUInt32 (min_lt_of_right_lt p.intervals_lt)]

end Pace

/-! ### The schedule -/

theorem shotsDue_of_untimed (hcount : 0 < a.count) (h : a.duration ≤ 0 ∨ a.count = 1) (x : Single) :
    a.shotsDue x = a.magazine := by
  rw [shotsDue, if_neg hcount.ne', if_pos h, magazine, if_pos h]

theorem magazine_of_duration_le (h : a.duration ≤ 0) : a.magazine = a.count := if_pos (Or.inl h)

theorem magazine_pos (hcount : 0 < a.count) : 0 < a.magazine := by
  rw [magazine]
  split
  · exact hcount
  · exact Nat.succ_pos _

section Schedule

variable (hcount : 0 < a.count) (hmax : a.count ≤ 2 ^ 31) (hfinite : a.duration.isFinite = true)
include hcount hmax hfinite

theorem shotsDue_mono {x y : Single} (hx : 0 ≤ x) (hle : x ≤ y) : a.shotsDue x ≤ a.shotsDue y := by
  by_cases htimed : a.duration ≤ 0 ∨ a.count = 1
  · rw [shotsDue_of_untimed hcount htimed, shotsDue_of_untimed hcount htimed]
  · obtain ⟨p⟩ := exists_pace hcount hmax hfinite htimed
    obtain ⟨t, ht⟩ := Single.exists_amounts hx
    obtain ⟨u, hu, htu⟩ := Single.exists_amounts_of_le ht hle
    obtain ⟨passed, hpassed, hdue⟩ := p.exists_shotsDue ht
    obtain ⟨passed', hpassed', hdue'⟩ := p.exists_shotsDue hu
    rw [hdue, hdue']
    gcongr
    exact hpassed.mono (Stands.nonneg ht) htu hpassed'

theorem shotsDue_eq_magazine {x : Single} (hx : 0 ≤ x) (hle : a.duration + a.duration ≤ x) :
    a.shotsDue x = a.magazine := by
  by_cases htimed : a.duration ≤ 0 ∨ a.count = 1
  · exact shotsDue_of_untimed hcount htimed x
  · obtain ⟨p⟩ := exists_pace hcount hmax hfinite htimed
    obtain ⟨t, ht⟩ := Single.exists_amounts hx
    obtain ⟨twice, htwice, hdouble⟩ := p.duration_amounts.add p.duration_amounts
    obtain ⟨passed, hpassed, hdue⟩ := p.exists_shotsDue ht
    have hall : p.intervals ≤ passed :=
      hpassed.intervals_le hdouble ((htwice.le_iff ht).mp hle) (Stands.rounds ht)
    rw [hdue, min_eq_right hall, p.magazine_eq]

theorem shotsDue_le_magazine {x : Single} (hx : 0 ≤ x) : a.shotsDue x ≤ a.magazine := by
  by_cases htimed : a.duration ≤ 0 ∨ a.count = 1
  · exact (shotsDue_of_untimed hcount htimed x).le
  · obtain ⟨p⟩ := exists_pace hcount hmax hfinite htimed
    obtain ⟨t, ht⟩ := Single.exists_amounts hx
    obtain ⟨passed, -, hdue⟩ := p.exists_shotsDue ht
    rw [hdue, p.magazine_eq]
    gcongr
    exact min_le_right _ _

/-- A timed schedule ends one bullet after the nearest single to the number of intervals. -/
theorem rounds_magazine (h : ¬a.duration ≤ 0) :
    Rounds (a.count - 1 : ℕ) (a.magazine - 1 : ℕ) := by
  by_cases hone : a.count = 1
  · rw [magazine, if_pos (Or.inr hone), hone]
    exact (fits_natCast (by norm_num)).rounds (by norm_num)
  · obtain ⟨p⟩ := exists_pace hcount hmax hfinite (not_or.mpr ⟨h, hone⟩)
    rw [p.magazine_eq, Nat.add_sub_cancel, p.natCast_floor_intervals hmax]
    exact p.intervals_rounds

/-- The schedule ends at the count just if a single has room for the number of intervals. -/
theorem magazine_eq_count_iff :
    a.magazine = a.count ↔ a.duration ≤ 0 ∨ Fits (a.count - 1 : ℕ) := by
  by_cases hduration : a.duration ≤ 0
  · exact iff_of_true (magazine_of_duration_le hduration) (Or.inl hduration)
  · have hrounds := rounds_magazine hcount hmax hfinite hduration
    have hpos := magazine_pos hcount
    have hpred : a.magazine = a.count ↔ a.magazine - 1 = a.count - 1 := by omega
    rw [hpred, or_iff_right hduration]
    constructor
    · intro hsame
      rw [hsame] at hrounds
      exact hrounds.fits
    · intro hfits
      exact_mod_cast hrounds.eq (by positivity) (hfits.rounds (natCast_le_max hmax))

end Schedule

/-! ### A run of updates -/

theorem exists_amounts_clock (run : List Context) : ∃ t, (clock run).Amounts t := by
  induction run using List.reverseRecOn with
  | nil => exact ⟨0, Single.amounts_zero⟩
  | append_singleton earlier c ih =>
      rw [clock_concat]
      split
      · next hstep =>
        have hpos : 0 < c.1.step := of_decide_eq_true (Bool.and_eq_true_iff.mp hstep).2
        obtain ⟨t, ht⟩ := ih
        obtain ⟨s, hs⟩ := Single.exists_amounts (Single.le_of_lt hpos)
        exact (ht.add hs).imp fun _ h => h.1
      · exact ih

/-- Time that is counted is not negative. -/
theorem clock_nonneg (run : List Context) : 0 ≤ clock run := by
  obtain ⟨t, ht⟩ := exists_amounts_clock run
  exact (Single.amounts_zero.le_iff ht).mpr (Stands.nonneg ht)

section Run

variable (hcount : 0 < a.count) (hmax : a.count ≤ 2 ^ 31) (hfinite : a.duration.isFinite = true)
include hcount hmax hfinite

theorem scheduled_le_max (earlier : List Context) (m : Moment) :
    a.scheduled earlier m ≤ max a.count a.magazine := by
  rw [scheduled]
  split
  · exact le_max_left _ _
  · exact le_max_of_le_right (shotsDue_le_magazine hcount hmax hfinite (clock_nonneg earlier))

/-- From twice the duration on, a timed barrage has its whole schedule due, and the count with a step
without duration. -/
theorem due_of_le {earlier : List Context} (m : Moment)
    (hlate : a.duration + a.duration ≤ (a.start.played earlier).elapsed)
    (hover : (a.start.played earlier).isOver = false) :
    a.scheduled earlier m =
      if 0 < a.duration ∧ m.hasDuration = false then a.count else a.magazine := by
  rw [a.played_elapsed earlier hover] at hlate
  have hlast := shotsDue_eq_magazine hcount hmax hfinite (clock_nonneg earlier) hlate
  rw [scheduled, hlast]
  by_cases hduration : a.duration ≤ 0
  · have hall : a.magazine = a.count := if_pos (Or.inl hduration)
    rw [if_pos (Or.inl hduration), hall, ite_self]
  · simp [hduration]

theorem isOver_concat_iff {earlier : List Context} (c : Context)
    (hlate : a.duration + a.duration ≤ (a.start.played earlier).elapsed) :
    (a.start.played (earlier ++ [c])).isOver = true ↔ a.count ≤ a.magazine ∨
      (a.start.played earlier).isOver = true ∨ 0 < a.duration ∧ c.1.hasDuration = false := by
  cases hover : (a.start.played earlier).isOver with
  | true => simp [played_concat, update_of_isOver _ _ hover, hover]
  | false =>
      have hfired : ¬a.count ≤ (a.start.played earlier).fired := by
        have hcontinues : ¬(a.start.played earlier).isOver = true := by simp [hover]
        rwa [isOver_iff, played_count] at hcontinues
      rw [isOver_iff, played_count, a.fired_played_concat c hover,
        due_of_le hcount hmax hfinite c.1 hlate hover]
      change a.count ≤ max (a.start.played earlier).fired _ ↔ _
      rw [le_max_iff, or_iff_right hfired]
      split
      · next hstep => simp [hstep]
      · next hstep => simp [hstep]

end Run

/-- A barrage of which so many bullets come due in all empties its magazine, whatever the steps of its
updates are. -/
structure Empties (a : Barrage) (due : ℕ) : Prop where
  first : ∀ t, 0 ≤ t → 1 ≤ a.shotsDue t
  last : ∀ t, 0 ≤ t → a.shotsDue t ≤ due
  mono : ∀ t u, 0 ≤ t → t ≤ u → a.shotsDue t ≤ a.shotsDue u
  all : ∀ t, 0 ≤ t → a.duration + a.duration ≤ t → a.shotsDue t = due
  /-- A step without duration fires up to the count, and nothing else goes beyond what comes due. -/
  pushes : ∀ run i g, i.fire = some g →
    ∃ g', (Write.applyAll i (a.start.written run)).fire = some g' ∧
      g'.directions.length ≤ g.directions.length + max a.count due
  /-- Where the count comes due, an update after twice the duration leaves the barrage over; where
  less does, only a step without duration ends it. -/
  done : ∀ earlier c, a.duration + a.duration ≤ (a.start.played earlier).elapsed →
    ((a.start.played (earlier ++ [c])).isOver = true ↔ a.count ≤ due ∨
      (a.start.played earlier).isOver = true ∨ 0 < a.duration ∧ c.1.hasDuration = false)

section Empties

variable (hcount : 0 < a.count) (hmax : a.count ≤ 2 ^ 31) (hfinite : a.duration.isFinite = true)
include hcount hmax hfinite

theorem empties_magazine : a.Empties a.magazine where
  first t _ := a.shotsDue_pos hcount t
  last t ht := shotsDue_le_magazine hcount hmax hfinite ht
  mono t u ht htu := shotsDue_mono hcount hmax hfinite ht htu
  all t ht hlate := shotsDue_eq_magazine hcount hmax hfinite ht hlate
  pushes run i g hfire := by
    have hlength : (a.start.shots run).length ≤ max a.count a.magazine := by
      rw [shots_length]
      exact a.fired_played_le_of (scheduled_le_max hcount hmax hfinite) run
    rw [a.start.applyAll_written hfire]
    refine ⟨_, rfl, ?_⟩
    simpa using hlength
  done earlier c hlate := isOver_concat_iff hcount hmax hfinite c hlate

/-- After infinite time the schedule has come to its end, so it ends at one number only. -/
theorem empties_count_iff : a.Empties a.count ↔ a.magazine = a.count := by
  constructor
  · intro h
    by_cases htimed : a.duration ≤ 0 ∨ a.count = 1
    · exact if_pos htimed
    · obtain ⟨p⟩ := exists_pace hcount hmax hfinite htimed
      obtain ⟨twice, htwice, _⟩ := p.duration_amounts.add p.duration_amounts
      have hendless : (1 / 0 : Single).Amounts (2 ^ 128) := Stands.infinity
      have hpos : 0 ≤ (1 / 0 : Single) :=
        (Single.amounts_zero.le_iff hendless).mpr (by positivity)
      have hlate : a.duration + a.duration ≤ (1 / 0 : Single) :=
        (htwice.le_iff hendless).mpr (Stands.le_max htwice)
      rw [← shotsDue_eq_magazine hcount hmax hfinite hpos hlate, h.all _ hpos hlate]
  · intro h
    have hall := empties_magazine hcount hmax hfinite
    rwa [h] at hall

end Empties

end Barrage

/-- **A barrage empties its magazine.** Its schedule starts with one bullet, never goes back and
has come to its end after twice the duration, for each barrage that can be authored. A timed schedule
ends one bullet after the nearest single to the number of intervals, so the end is the count just if a
single has room for that number, as it has up to `2 ^ 24`. -/
theorem barrage_empties_magazine {a : Barrage} (hcount : 1 ≤ a.count) (hmax : a.count ≤ 2 ^ 31)
    (hfinite : a.duration.isFinite = true) :
    a.Empties a.magazine ∧
      (a.duration ≤ 0 → a.magazine = a.count) ∧
      (¬a.duration ≤ 0 → Rounds (a.count - 1 : ℕ) (a.magazine - 1 : ℕ)) ∧
      (a.Empties a.count ↔ a.duration ≤ 0 ∨ Fits (a.count - 1 : ℕ)) := by
  refine ⟨Barrage.empties_magazine hcount hmax hfinite, Barrage.magazine_of_duration_le,
    Barrage.rounds_magazine hcount hmax hfinite, ?_⟩
  rw [Barrage.empties_count_iff hcount hmax hfinite,
    Barrage.magazine_eq_count_iff hcount hmax hfinite]

/-- Five bullets over a second have all come due after two. -/
theorem barrage_empties_magazine_five :
    let five : Barrage := ⟨0, 90, 5, 1, .forward, 0, 0⟩
    1 ≤ five.count ∧ five.count ≤ 2 ^ 31 ∧ five.duration.isFinite = true ∧
      five.Empties five.count ∧ five.shotsDue 2 = 5 := by
  intro five
  have hcount : 1 ≤ five.count := by decide
  have hmax : five.count ≤ 2 ^ 31 := by decide
  have hfinite : five.duration.isFinite = true := by decide +kernel
  have hempties : five.Empties five.count :=
    (barrage_empties_magazine hcount hmax hfinite).2.2.2.mpr (Or.inr (fits_natCast (by decide)))
  exact ⟨hcount, hmax, hfinite, hempties,
    hempties.all 2 (by decide +kernel) (by decide +kernel)⟩

/-- The intervals of one barrage are rounded up, and a bullet too many comes due; those of another
are rounded down, and its last bullet never does. -/
theorem barrage_misses_count :
    let long : Barrage := ⟨0, 90, 16777220, 1, .forward, 0, 0⟩
    let short : Barrage := ⟨0, 90, 16777218, 1, .forward, 0, 0⟩
    (1 ≤ long.count ∧ long.count ≤ 2 ^ 31 ∧ long.duration.isFinite = true ∧
      long.shotsDue 2 = long.count + 1 ∧ ¬long.Empties long.count) ∧
    (1 ≤ short.count ∧ short.count ≤ 2 ^ 31 ∧ short.duration.isFinite = true ∧
      short.shotsDue 2 + 1 = short.count ∧ ¬short.Empties short.count) := by
  intro long short
  have htwo : (0 : Single) ≤ 2 := by decide +kernel
  have hlong : long.shotsDue 2 = long.count + 1 := by decide +kernel
  have hshort : short.shotsDue 2 + 1 = short.count := by decide +kernel
  refine ⟨⟨by decide, by decide, by decide +kernel, hlong, fun h => ?_⟩,
    by decide, by decide, by decide +kernel, hshort, fun h => ?_⟩
  · have hlast := h.last 2 htwo
    omega
  · have hall := h.all 2 htwo (by decide +kernel)
    omega

end Choreo
