import Choreo.Proofs.Leaf.Standstill
import Choreo.Proofs.Repetition

/-!
# Leaves that come to their end

Under equal steps a leaf comes to its end or to a standstill. Its reading rises with every update that
changes it and cannot rise for ever; an update that changes nothing is followed by none that does.
-/

namespace Choreo

/-! ### Leaves under equal steps -/

namespace Leaf

variable {a : Leaf} {step : Single}

/-- Of the moment a leaf learns the length of the step, and not the number of the tick. -/
theorem update_congr {m m' : Moment} (h : m.step = m'.step) (w : Surroundings) (a : Leaf) :
    a.update m w = a.update m' w := by
  have hduration : m.hasDuration = m'.hasDuration := by rw [Moment.hasDuration, h, Moment.hasDuration]
  cases a with
  | wait a => simp only [update, Wait.update, h, hduration]
  | moveBy a => simp only [update, MoveBy.update, h, hduration]
  | followPath a => simp only [update, FollowPath.update, h, hduration]
  | followBezier a => simp only [update, FollowBezier.update, h, hduration]
  | barrage a => simp only [update, Barrage.update, h, hduration]
  | _ => rfl

/-- One update that changes nothing shows that no update of that length does. -/
theorem StandsStill.of_update {m : Moment} {w : Surroundings} (hover : a.isOver = false)
    (hsame : (a.update m w).1.unplaced = a.unplaced) : a.StandsStill m.step := by
  refine ⟨hover, fun m' w' hm' => ?_⟩
  rw [update_congr hm' w' a, update_unplaced m w' w rfl, hsame]

theorem StandsStill.update (h : a.StandsStill step) {m : Moment} (hm : m.step = step)
    (w : Surroundings) : (a.update m w).1.StandsStill step := by
  have hsame : (a.update m w).1.unplaced = a.unplaced := h.2 m w hm
  refine ⟨by rw [← isOver_unplaced, hsame, isOver_unplaced]; exact h.1, fun m' w' hm' => ?_⟩
  rw [update_unplaced m' w' w' hsame, h.2 m' w' hm', hsame]

/-- The leaf after so many updates. -/
def fed (k : ℕ) (c : Stream' Context) (a : Leaf) : Leaf :=
  after (fun x a => (a.update x.1 x.2).1) k c a

theorem fed_succ (k : ℕ) (c : Stream' Context) (a : Leaf) :
    a.fed (k + 1) c = ((a.fed k c).update (c.get k).1 (c.get k).2).1 :=
  after_succ _ k c a

/-- Steps of one length. -/
def Even (step : Single) (c : Stream' Context) : Prop := ∀ k, (c.get k).1.step = step

/-- What every update of such a length keeps is kept for ever. -/
theorem fed_of_update {P : Leaf → Prop} {c : Stream' Context} (hc : Even step c) {j k : ℕ}
    (hle : j ≤ k) (h : P (a.fed j c))
    (hupdate : ∀ b m w, P b → m.step = step → P (b.update m w).1) : P (a.fed k c) := by
  induction hle with
  | refl => exact h
  | step _ ih =>
      rw [fed_succ]
      exact hupdate _ _ _ ih (hc _)

variable {c : Stream' Context}

theorem regular_fed (h : a.Regular) (hc : Even step c) (k : ℕ) : (a.fed k c).Regular :=
  fed_of_update hc (Nat.zero_le k) h fun _ m w hb _ => (goes_update hb m w).regular

theorem countable_fed (h : a.Countable) (hc : Even step c) (k : ℕ) : (a.fed k c).Countable :=
  fed_of_update hc (Nat.zero_le k) h fun _ m w hb _ => hb.update m w

theorem hasRoom_fed (h : a.HasRoom step) (hc : Even step c) (k : ℕ) : (a.fed k c).HasRoom step :=
  fed_of_update hc (Nat.zero_le k) h fun _ m w hb _ => hb.update m w

theorem isOver_fed_of_le (h : a.Regular) (hc : Even step c) {j k : ℕ} (hle : j ≤ k)
    (hover : (a.fed j c).isOver = true) : (a.fed k c).isOver = true :=
  (fed_of_update (P := fun b => b.Regular ∧ b.isOver = true) hc hle ⟨regular_fed h hc j, hover⟩
    fun _ m w hb _ => ⟨(goes_update hb.1 m w).regular, (goes_update hb.1 m w).isOver hb.2⟩).2

theorem standsStill_fed_of_le (hc : Even step c) {j k : ℕ} (hle : j ≤ k)
    (hstill : (a.fed j c).StandsStill step) : (a.fed k c).StandsStill step :=
  fed_of_update hc hle hstill fun _ _ w hb hm => hb.update hm w

/-- An update that does not change the reading of a leaf finds it over or at a standstill. -/
theorem reading_lt_update (h : a.Regular) (hover : a.isOver = false) {m : Moment} {w : Surroundings}
    (hmoves : ¬a.StandsStill m.step) : a.reading < (a.update m w).1.reading := by
  refine (reading_le_update h m w).lt_of_ne fun hsame => hmoves ?_
  exact .of_update hover (unplaced_update_of_reading_eq h hover hsame.symm)

/-- The reading counts the updates of a leaf that neither ends nor stands still. -/
theorem le_reading_fed (h : a.Regular) (hc : Even step c) (hover : ∀ k, (a.fed k c).isOver = false)
    (hmoves : ∀ k, ¬(a.fed k c).StandsStill step) (k : ℕ) : k ≤ (a.fed k c).reading := by
  induction k with
  | zero => exact Nat.zero_le _
  | succ k ih =>
      rw [fed_succ]
      exact ih.trans_lt (reading_lt_update (regular_fed h hc k) (hover k) (by rw [hc k]; exact hmoves k))

theorem exists_isOver_fed_iff (h : a.Regular) (hcountable : a.Countable) (hc : Even step c) :
    (∃ k, (a.fed k c).isOver = true) ↔ ∀ k, ¬(a.fed k c).StandsStill step := by
  constructor
  · rintro ⟨k, hover⟩ j hstill
    rcases Nat.le_total k j with hle | hle
    · have hlater := isOver_fed_of_le h hc hle hover
      rw [hstill.1] at hlater
      cases hlater
    · rw [(standsStill_fed_of_le hc hle hstill).1] at hover
      cases hover
  · intro hmoves
    by_contra hnever
    rw [not_exists] at hnever
    obtain ⟨most, hmost⟩ : ∃ most, ∀ b : Leaf, b.Regular → b.Countable → b.reading ≤ most :=
      ⟨_, fun _ => reading_le⟩
    have hcount := le_reading_fed h hc (fun k => Bool.eq_false_iff.mpr (hnever k)) hmoves (most + 1)
    have hmost := hmost _ (regular_fed h hc (most + 1)) (countable_fed hcountable hc (most + 1))
    exact absurd (hcount.trans hmost) (Nat.not_succ_le_self _)

/-- A check lets no endless barrage through, so one of not too many bullets can be counted. -/
theorem countable_start {a b : Leaf} {w : Surroundings} (h : a.init w = .ok b)
    (hcount : ∀ barrage, a = .barrage barrage → barrage.count ≤ 2 ^ 24) (w' : Surroundings) :
    (b.start w').1.Countable := by
  cases a with
  | barrage a =>
      obtain ⟨b, hinit, rfl⟩ := Fault.ok_of_map h
      obtain ⟨_, _, _, hfinite, rfl⟩ := Barrage.ok_of_init hinit
      exact ⟨hfinite, hcount b rfl⟩
  | _ =>
      obtain ⟨b, _, rfl⟩ := Fault.ok_of_map h
      trivial

theorem HasRoom.start (h : a.HasRoom step) (w : Surroundings) : (a.start w).1.HasRoom step := by
  cases a <;> exact h

end Leaf

/-! ### Leaf nodes -/

namespace Node

variable {h : Header} {a b : Leaf}

/-- A leaf node that is not over, and that updates of such a length leave as it is. -/
def StandsStill (step : Single) (n : Node) : Prop :=
  n.isOver = false ∧ ∃ h a, n = leaf h a ∧ a.StandsStill step

theorem fed_leaf (hlive : h.live = true) (k : ℕ) (c : Stream' Context) (a : Leaf) :
    (leaf h a).fed k c = leaf h (a.fed k c) := by
  induction k with
  | zero => rfl
  | succ k ih => rw [fed_succ, ih, update_leaf, if_pos hlive, Leaf.fed_succ]

theorem isOver_leaf (hlive : h.live = true) (a : Leaf) : (leaf h a).isOver = a.isOver := by
  have hheader : (leaf h a).header.live = true := hlive
  rw [isOver, hheader]
  rfl

theorem standsStill_leaf_iff {step : Single} (hlive : h.live = true) :
    (leaf h a).StandsStill step ↔ a.StandsStill step := by
  constructor
  · rintro ⟨-, _, _, heq, hstill⟩
    cases heq
    exact hstill
  · exact fun hstill => ⟨by rw [isOver_leaf hlive]; exact hstill.1, h, a, rfl, hstill⟩

end Node

/-- **A leaf comes to its end unless it stands still.** Under equal steps, whatever else the
surroundings do, a leaf that a check accepts comes to its end exactly if it never stands still, and it
does if what it has to come to is at most `2 ^ 24` times what a step adds. -/
theorem leaf_ends_unless_still {h : Header} {a : Leaf} {w w' : Surroundings} {id : ℕ} {step : Single}
    {c : Stream' Context} (haccepted : ((Node.leaf h a).init w id).1.header.fault = none)
    (hcount : ∀ barrage, a = .barrage barrage → barrage.count ≤ 2 ^ 24)
    (hstep : step.isPositiveFinite = true) (hc : ∀ k, (c.get k).1.step = step) :
    let started := (((Node.leaf h a).init w id).1.start w').1
    ((∃ n, (started.fed n c).isOver = true) ↔ ∀ n, ¬(started.fed n c).StandsStill step) ∧
      ((∀ b, a.init w = .ok b → b.HasRoom step) → ∃ n, (started.fed n c).isOver = true) := by
  obtain ⟨b, hinit, hnode⟩ := Node.init_leaf_of_fault haccepted
  have hregular := Leaf.regular_start hinit w'
  have hcountable := Leaf.countable_start hinit hcount w'
  rw [hnode]
  intro started
  by_cases hlive : (h.initialised id none).opened.live = true
  · have hends : ∀ n, (started.fed n c).isOver = ((b.start w').1.fed n c).isOver := fun n => by
      simp only [started]
      rw [Node.start_leaf w' _ hlive, Node.fed_leaf hlive, Node.isOver_leaf hlive]
    have hstill : ∀ n, (started.fed n c).StandsStill step ↔
        ((b.start w').1.fed n c).StandsStill step := fun n => by
      simp only [started]
      rw [Node.start_leaf w' _ hlive, Node.fed_leaf hlive, Node.standsStill_leaf_iff hlive]
    simp only [hends, hstill]
    have hiff := Leaf.exists_isOver_fed_iff hregular hcountable hc
    refine ⟨hiff, fun hroom => hiff.mpr fun n => ?_⟩
    exact Leaf.not_standsStill (Leaf.regular_fed hregular hc n) (Leaf.countable_fed hcountable hc n)
      hstep (Leaf.hasRoom_fed ((hroom b hinit).start w') hc n)
  -- A node that has been switched off is over at once.
  · have hover : (started.fed 0 c).isOver = true := by
      have hdead : started.header.live = false := by
        rw [Node.start_header]
        exact Bool.eq_false_iff.mpr hlive
      have hfed : started.fed 0 c = started := rfl
      rw [hfed, Node.isOver, hdead]
      rfl
    refine ⟨⟨fun _ n hstill => ?_, fun _ => ⟨0, hover⟩⟩, fun _ => ⟨0, hover⟩⟩
    have hdead : (started.fed n c).header.live = false := by
      rw [Node.fed_header, Node.start_header]
      exact Bool.eq_false_iff.mpr hlive
    rw [Node.StandsStill, Node.isOver, hdead] at hstill
    cases hstill.1

/-- A minute in seconds. -/
theorem leaf_ends_unless_still_minute :
    let started := (((Node.leaf {} (.wait { duration := 60 })).init {} 0).1.start {}).1
    let seconds : Stream' Context := Stream'.const (⟨0, 1⟩, {})
    ∃ n, (started.fed n seconds).isOver = true := by
  intro started seconds
  have hends := @leaf_ends_unless_still {} (.wait { duration := 60 }) {} {} 0 1 seconds rfl
    (fun _ heq => by cases heq) (by decide +kernel) (fun _ => rfl)
  refine hends.2 fun b hinit => ?_
  obtain ⟨b, hwait, rfl⟩ := Fault.ok_of_map hinit
  obtain ⟨_, rfl⟩ := Wait.ok_of_init (a := { duration := 60 }) hwait
  have hminute : Single.ofCount 60 = 60 := by decide +kernel
  have hlong : (60 : Single).Amounts (60 : ℕ) := hminute ▸
    Single.amounts_ofCount_of_le (by norm_num) (by norm_num)
  exact ⟨_, 1, hlong.means, Single.amounts_one, by norm_num⟩

/-- A path whose second piece is so much longer than its first that the first update all but skips it
and the others add nothing. -/
def lopsided : FollowPath :=
  { path := .polyline ⟨[⟨0, 0⟩, ⟨1, 0⟩, ⟨33554432, 0⟩]⟩
    speed := 1.9997999668121338 }

/-- Follows a path at a constant speed that comes to a standstill within a tick of its end. -/
theorem path_never_ends :
    let started := (((Node.leaf {} (.followPath lopsided)).init {} 0).1.start {}).1
    let seconds : Stream' Context := Stream'.const (⟨0, 1⟩, {})
    ((Node.leaf {} (.followPath lopsided)).init {} 0).1.header.fault = none ∧
      (1 : Single).isPositiveFinite = true ∧
        ¬∃ n, (started.fed n seconds).isOver = true := by
  intro started seconds
  have haccepted : ((Node.leaf {} (.followPath lopsided)).init {} 0).1.header.fault = none := by
    decide +kernel
  refine ⟨haccepted, by decide +kernel, ?_⟩
  rintro ⟨n, hover⟩
  have hseconds : Leaf.Even 1 seconds := fun _ => rfl
  obtain ⟨b, hinit, hnode⟩ := Node.init_leaf_of_fault haccepted
  obtain ⟨b, hpath, rfl⟩ := Fault.ok_of_map hinit
  obtain ⟨_, _, _, rfl⟩ := FollowPath.ok_of_init (a := lopsided) hpath
  have hlive : (Header.initialised {} 0 none).opened.live = true := rfl
  have hfed : started.fed n seconds =
      .leaf (Header.initialised {} 0 none).opened (((Leaf.followPath lopsided).start {}).1.fed n seconds) := by
    simp only [started]
    rw [hnode, Node.start_leaf {} _ hlive, Node.fed_leaf hlive]
  rw [hfed, Node.isOver_leaf hlive] at hover
  have hstill : (((Leaf.followPath lopsided).start {}).1.fed 1 seconds).StandsStill 1 :=
    Leaf.StandsStill.of_update (m := ⟨0, 1⟩) (w := {}) (by decide +kernel) (by decide +kernel)
  have hnever := (Leaf.exists_isOver_fed_iff (Leaf.regular_start hinit {}) trivial hseconds).mp ⟨n, hover⟩
  exact hnever 1 hstill

end Choreo
