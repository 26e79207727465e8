import Choreo.Proofs.Data.Buffering

/-!
# Readings that concur

Two readings concur if both fail, or if both succeed and give the same. Why they fail may differ: a
text is read from its head on, and another order of its parts brings another fault to the fore. What
is folded over a list concurs with itself in any order of the list, if any two neighbours may change
places.
-/

namespace Choreo

variable {ε α β γ δ : Type}

theorem bind_eq_ok_iff {x : Except ε α} {f : α → Except ε β} {b : β} :
    (x >>= f) = .ok b ↔ ∃ a, x = .ok a ∧ f a = .ok b := by
  constructor
  · exact bind_eq_ok
  · rintro ⟨a, rfl, h⟩
    exact h

theorem map_eq_ok_iff {x : Except ε α} {f : α → β} {b : β} :
    f <$> x = .ok b ↔ ∃ a, x = .ok a ∧ f a = b := by
  cases x <;> simp

/-- Both fail, or both succeed with results that are related. -/
inductive ConcurUpTo (Related : α → β → Prop) : Except ε α → Except ε β → Prop
  | ok {a : α} {b : β} (h : Related a b) : ConcurUpTo Related (.ok a) (.ok b)
  | error (e e' : ε) : ConcurUpTo Related (.error e) (.error e')

/-- Both fail, or both succeed and give the same. -/
abbrev Concur (x y : Except ε α) : Prop := ConcurUpTo Eq x y

theorem ConcurUpTo.bind {Related : α → β → Prop} {Outcome : γ → δ → Prop} {x : Except ε α}
    {y : Except ε β} {f : α → Except ε γ} {g : β → Except ε δ} (h : ConcurUpTo Related x y)
    (hnext : ∀ a b, Related a b → ConcurUpTo Outcome (f a) (g b)) :
    ConcurUpTo Outcome (x >>= f) (y >>= g) := by
  cases h with
  | ok h => exact hnext _ _ h
  | error e e' => exact .error e e'

theorem ConcurUpTo.map {Related : α → β → Prop} {Outcome : γ → δ → Prop} {x : Except ε α}
    {y : Except ε β} {f : α → γ} {g : β → δ} (h : ConcurUpTo Related x y)
    (hout : ∀ a b, Related a b → Outcome (f a) (g b)) :
    ConcurUpTo Outcome (f <$> x) (g <$> y) := by
  cases h with
  | ok h => exact .ok (hout _ _ h)
  | error e e' => exact .error e e'

theorem ConcurUpTo.refl {Related : α → α → Prop} (hrefl : ∀ a, Related a a) (x : Except ε α) :
    ConcurUpTo Related x x := by
  cases x with
  | ok a => exact .ok (hrefl a)
  | error e => exact .error e e

theorem ConcurUpTo.symm {Related : α → α → Prop} (hsymm : ∀ a b, Related a b → Related b a)
    {x y : Except ε α} (h : ConcurUpTo Related x y) : ConcurUpTo Related y x := by
  cases h with
  | ok h => exact .ok (hsymm _ _ h)
  | error e e' => exact .error e' e

theorem ConcurUpTo.trans {Related : α → α → Prop}
    (htrans : ∀ a b c, Related a b → Related b c → Related a c) {x y z : Except ε α}
    (h : ConcurUpTo Related x y) (h' : ConcurUpTo Related y z) : ConcurUpTo Related x z := by
  cases h with
  | ok h =>
      cases h' with
      | ok h' => exact .ok (htrans _ _ _ h h')
  | error e e' =>
      cases h' with
      | error _ e' => exact .error e e'

namespace Concur

variable {x y z : Except ε α}

theorem refl (x : Except ε α) : Concur x x := ConcurUpTo.refl (fun _ => rfl) x

theorem symm (h : Concur x y) : Concur y x := by
  refine ConcurUpTo.symm ?_ h
  exact fun _ _ => Eq.symm

theorem trans (h : Concur x y) (h' : Concur y z) : Concur x z := by
  refine ConcurUpTo.trans ?_ h h'
  exact fun _ _ _ => Eq.trans

theorem bind {f g : α → Except ε β} (h : Concur x y) (hnext : ∀ a, Concur (f a) (g a)) :
    Concur (x >>= f) (y >>= g) :=
  ConcurUpTo.bind h fun a _ hab => hab ▸ hnext a

theorem map (f : α → β) (h : Concur x y) : Concur (f <$> x) (f <$> y) :=
  ConcurUpTo.map h fun _ _ => congrArg f

theorem of_eq (h : x = y) : Concur x y := h ▸ refl x

/-- Either of two readings may come first, if neither depends on the other. -/
theorem swap (x : Except ε α) (y : Except ε β) (f : α → β → Except ε γ) :
    Concur (x >>= fun a => y >>= f a) (y >>= fun b => x >>= (f · b)) := by
  cases x with
  | ok a => exact refl _
  | error e =>
      cases y with
      | ok b => exact refl _
      | error e' => exact .error e e'

/-- Readings concur if each result of one of them is a result of the other. -/
theorem iff : Concur x y ↔ ∀ a, x = .ok a ↔ y = .ok a := by
  constructor
  · intro h a
    cases h with
    | ok h => rw [h]
    | error e e' => simp
  · intro h
    cases hx : x with
    | ok a => rw [(h a).mp hx]; exact refl _
    | error e =>
        cases hy : y with
        | ok b => rw [(h b).mpr hy] at hx; cases hx
        | error e' => exact .error e e'

end Concur

/-! ### Lists -/

/-- Reading one item differently matters only to that item. -/
theorem Concur.mapM_replace {item : α → Except ε β} {a b : α} (h : Concur (item a) (item b))
    (left right : List α) :
    Concur ((left ++ a :: right).mapM item) ((left ++ b :: right).mapM item) := by
  simp only [List.mapM_append, List.mapM_cons]
  exact bind (refl _) fun _ => bind (bind h fun _ => refl _) fun _ => refl _

theorem Concur.mapM_congr {item item' : α → Except ε β} {as : List α}
    (h : ∀ a ∈ as, Concur (item a) (item' a)) : Concur (as.mapM item) (as.mapM item') := by
  induction as with
  | nil => exact refl _
  | cons a as ih =>
      rw [List.mapM_cons, List.mapM_cons]
      exact bind (h a (by simp)) fun _ => bind (ih fun b hb => h b (by simp [hb])) fun _ => refl _

variable {f f' : β → α → Except ε β}

theorem Concur.foldlM_congr {as : List α} (h : ∀ a ∈ as, ∀ b, Concur (f b a) (f' b a)) (b : β) :
    Concur (as.foldlM f b) (as.foldlM f' b) := by
  induction as generalizing b with
  | nil => exact refl _
  | cons a as ih =>
      rw [List.foldlM_cons, List.foldlM_cons]
      exact bind (h a (by simp) b) fun c => ih (fun a' ha' => h a' (by simp [ha'])) c

theorem Concur.foldlM_replace {a a' : α} (h : ∀ b, Concur (f b a) (f b a')) (left right : List α)
    (b : β) :
    Concur ((left ++ a :: right).foldlM f b) ((left ++ a' :: right).foldlM f b) := by
  simp only [List.foldlM_append, List.foldlM_cons]
  exact bind (refl _) fun c => bind (h c) fun _ => refl _

section Permuted

variable {Related : β → β → Prop} (hrefl : ∀ b, Related b b)
  (htrans : ∀ a b c, Related a b → Related b c → Related a c)
  (hstep : ∀ b c a, Related b c → ConcurUpTo Related (f b a) (f c a))
  (hswap : ∀ b a a', ConcurUpTo Related (f b a >>= (f · a')) (f b a' >>= (f · a)))
include hstep

theorem ConcurUpTo.foldlM {as : List α} {b c : β} (h : Related b c) :
    ConcurUpTo Related (as.foldlM f b) (as.foldlM f c) := by
  induction as generalizing b c with
  | nil => exact .ok h
  | cons a as ih =>
      rw [List.foldlM_cons, List.foldlM_cons]
      exact (hstep b c a h).bind fun _ _ => ih

include hrefl htrans hswap

/-- What is folded over a list does not depend on the order of the list, as far as it does not for
neighbours. -/
theorem ConcurUpTo.foldlM_perm {as as' : List α} (hperm : as.Perm as') (b : β) :
    ConcurUpTo Related (as.foldlM f b) (as'.foldlM f b) := by
  induction hperm generalizing b with
  | nil => exact .ok (hrefl b)
  | @cons a as as' _ ih =>
      rw [List.foldlM_cons, List.foldlM_cons]
      have hrest : ∀ c d, Related c d → ConcurUpTo Related (as.foldlM f c) (as'.foldlM f d) :=
        fun c d hcd => (ih c).trans htrans (foldlM hstep hcd)
      exact (hstep b b a (hrefl b)).bind hrest
  | swap a a' as =>
      have hrest : ∀ c d, Related c d → ConcurUpTo Related (as.foldlM f c) (as.foldlM f d) :=
        fun _ _ => foldlM hstep
      simpa only [List.foldlM_cons, bind_assoc] using (hswap b a' a).bind hrest
  | trans _ _ ih ih' => exact (ih b).trans htrans (ih' b)

end Permuted

end Choreo
