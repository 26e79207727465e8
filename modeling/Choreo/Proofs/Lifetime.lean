import Mathlib.Data.ENat.Lattice
import Mathlib.Data.Stream.Init

/-!
# Lifetimes

A system that takes a step for each element of an infinite stream lives until it is spent for the
first time, and forever if it never is. A lifetime satisfies a recursive equation, and the equation
determines it: whatever counts down in step with a system is its lifetime.
-/

namespace Choreo

variable {α β σ τ : Type}

def after (step : α → σ → σ) : ℕ → Stream' α → σ → σ
  | 0, _, x => x
  | k + 1, s, x => after step k s.tail (step s.head x)

/-- The number of steps after which a system is spent for the first time. -/
noncomputable def lifetime (spent : σ → Bool) (step : α → σ → σ) (s : Stream' α) (x : σ) : ℕ∞ :=
  ⨅ k ∈ {k : ℕ | spent (after step k s x) = true}, (k : ℕ∞)

variable {spent : σ → Bool} {step : α → σ → σ} {s : Stream' α} {x : σ}

theorem le_lifetime_iff (k : ℕ) :
    (k : ℕ∞) ≤ lifetime spent step s x ↔ ∀ j < k, spent (after step j s x) = false := by
  rw [lifetime, le_iInf₂_iff]
  constructor
  · intro h j hj
    by_contra hspent
    have hle : (k : ℕ∞) ≤ j := h j (by simpa using hspent)
    have hle : k ≤ j := Nat.cast_le.mp hle
    omega
  · intro h j hspent
    rw [Nat.cast_le]
    by_contra hlt
    have hfresh := h j (by omega)
    rw [Set.mem_ofPred_eq, hfresh] at hspent
    simp at hspent

theorem lifetime_of_spent (hspent : spent x = true) : lifetime spent step s x = 0 := by
  by_contra hne
  have hle : ((1 : ℕ) : ℕ∞) ≤ lifetime spent step s x := by
    rw [Nat.cast_one]
    exact Order.one_le_iff_ne_zero.mpr hne
  have hfresh : spent x = false := (le_lifetime_iff 1).mp hle 0 (by omega)
  rw [hspent] at hfresh
  simp at hfresh

theorem lifetime_of_not_spent (hfresh : spent x = false) :
    lifetime spent step s x = 1 + lifetime spent step s.tail (step s.head x) := by
  refine ENat.eq_of_forall_natCast_le_iff fun k => ?_
  cases k with
  | zero => simp
  | succ k =>
      rw [Nat.cast_add, Nat.cast_one, add_comm (k : ℕ∞), ENat.add_le_add_iff_left ENat.one_ne_top,
        ← Nat.cast_one, ← Nat.cast_add, le_lifetime_iff, le_lifetime_iff]
      constructor
      · intro h j hj
        exact h (j + 1) (by omega)
      · intro h j hj
        cases j with
        | zero => exact hfresh
        | succ j => exact h j (by omega)

/-- **What counts down with a system is its lifetime.** The equation need only hold along the run, in
states that are `fair`. -/
theorem lifetime_eq (fair : Stream' α → σ → Prop) (left : Stream' α → σ → ℕ∞)
    (hspent : ∀ s x, fair s x → spent x = true → left s x = 0)
    (hstep : ∀ s x, fair s x → spent x = false →
      fair s.tail (step s.head x) ∧ left s x = 1 + left s.tail (step s.head x))
    (hfair : fair s x) : lifetime spent step s x = left s x := by
  refine ENat.eq_of_forall_natCast_le_iff fun k => ?_
  induction k generalizing s x with
  | zero => simp
  | succ k ih =>
      cases hx : spent x with
      | true => rw [lifetime_of_spent hx, hspent s x hfair hx]
      | false =>
          obtain ⟨hnext, hleft⟩ := hstep s x hfair hx
          rw [lifetime_of_not_spent hx, hleft, Nat.cast_add, Nat.cast_one, add_comm (k : ℕ∞),
            ENat.add_le_add_iff_left ENat.one_ne_top, ENat.add_le_add_iff_left ENat.one_ne_top]
          exact ih hnext

/-- Systems that move in step and are spent together live equally long. -/
theorem lifetime_congr {spent' : τ → Bool} {step' : β → τ → τ} (f : α → β) (like : σ → τ → Prop)
    (hspent : ∀ x y, like x y → spent x = spent' y)
    (hstep : ∀ a x y, like x y → like (step a x) (step' (f a) y)) {y : τ} (hlike : like x y) :
    lifetime spent step s x = lifetime spent' step' (s.map f) y := by
  refine ENat.eq_of_forall_natCast_le_iff fun k => ?_
  have hafter : ∀ k s x y, like x y →
      like (after step k s x) (after step' k (s.map f) y) := by
    intro k
    induction k with
    | zero => exact fun _ _ _ h => h
    | succ k ih => exact fun s x y h => ih s.tail _ _ (hstep s.head x y h)
  rw [le_lifetime_iff, le_lifetime_iff]
  constructor <;> intro h j hj
  · rw [← hspent _ _ (hafter j s x y hlike)]
    exact h j hj
  · rw [hspent _ _ (hafter j s x y hlike)]
    exact h j hj

end Choreo
