import Choreo.Proofs.Data.Precision

/-!
# Reading at once and reading later

What a decoder cannot use yet it keeps as a plain value. A source is faithful where this makes no
difference: a text, a flag, a list, a map or an alternative that is kept as a plain value is one that
the source itself would have given, with parts that are kept alike.
-/

namespace Choreo

section Success

variable {ε α β : Type}

@[simp]
theorem ok_bind (a : α) (f : α → Except ε β) : (Except.ok a >>= f) = f a := rfl

@[simp]
theorem error_bind (e : ε) (f : α → Except ε β) : (Except.error e >>= f) = .error e := rfl

@[simp]
theorem map_ok (f : α → β) (a : α) : f <$> (Except.ok a : Except ε α) = .ok (f a) := rfl

@[simp]
theorem pure_eq_ok (a : α) : (pure a : Except ε α) = .ok a := rfl

@[simp]
theorem throw_eq_error (e : ε) : (throw e : Except ε α) = .error e := rfl

theorem bind_eq_ok {x : Except ε α} {f : α → Except ε β} {b : β} (h : (x >>= f) = .ok b) :
    ∃ a, x = .ok a ∧ f a = .ok b := by
  cases x with
  | error e => cases h
  | ok a => exact ⟨a, rfl, h⟩

theorem forall₂_of_mapM {f : α → Except ε β} {as : List α} {bs : List β}
    (h : as.mapM f = .ok bs) : List.Forall₂ (fun a b => f a = .ok b) as bs := by
  induction as generalizing bs with
  | nil =>
      obtain rfl := Except.ok.inj h
      exact .nil
  | cons a as ih =>
      rw [List.mapM_cons] at h
      obtain ⟨b, hb, h⟩ := bind_eq_ok h
      obtain ⟨rest, hrest, h⟩ := bind_eq_ok h
      obtain rfl := Except.ok.inj h
      exact .cons hb (ih hrest)

end Success

/-- An entry of a map that is kept as a field. -/
def Source.KeepsEntry {σ : Type} (keeps : σ → Value → Prop) (e : Key × σ) (f : String × Value) :
    Prop :=
  e.1 = .text f.1 ∧ keeps e.2 f.2

/-- A source whose contents a plain value can stand in for, given which value stands in for which. -/
structure Source.Faithful {σ : Type} [Source σ] (keeps : σ → Value → Prop) : Prop where
  buffer {s v} : keeps s v → Source.buffer s = .ok v
  text {s t} : keeps s (.text t) → Source.isNull s = .ok false ∧ Source.text s = .ok t
  flag {s b} : keeps s (.flag b) → Source.flag s = .ok b
  list {s values} : keeps s (.list values) →
    ∃ items, Source.shape s = .ok (.items ⟨items, .ok ()⟩) ∧ List.Forall₂ keeps items values
  object {s fields} : keeps s (.object fields) →
    ∃ entries, Source.shape s = .ok (.entries ⟨entries, .ok ()⟩) ∧
      List.Forall₂ (Source.KeepsEntry keeps) entries fields
  choice {s name v} : keeps s (.object [(name, v)]) →
    ∃ content, Source.choice s = .ok ⟨.text name, some content, .ok ()⟩ ∧ keeps content v

theorem Value.faithful : Source.Faithful (σ := Value) Eq where
  buffer h := h ▸ rfl
  text h := h ▸ ⟨rfl, rfl⟩
  flag h := h ▸ rfl
  list := by
    rintro _ values rfl
    exact ⟨values, rfl, List.forall₂_eq_eq_eq ▸ rfl⟩
  object := by
    rintro _ fields rfl
    refine ⟨Value.named fields, rfl, ?_⟩
    rw [Value.named, List.forall₂_map_left_iff]
    exact List.forall₂_same.mpr fun f _ => ⟨rfl, rfl⟩
  choice := by
    rintro _ name v rfl
    exact ⟨v, rfl, rfl⟩

namespace Source.Faithful

variable {σ α β : Type} [Source σ] {keeps : σ → Value → Prop} (h : Faithful keeps)
include h

/-- A list gives back the things it was written from if each of its items does. -/
theorem list_ok {item : σ → Except DecodeError α} {written : β → Value} {result : β → α}
    {things : List β} {told : List Value} {s : σ} (hs : keeps s (.list told))
    (htold : told.map Value.narrowed = things.map written)
    (hitem : ∀ a ∈ things, ∀ v s, v.narrowed = written a → keeps s v → item s = .ok (result a)) :
    Source.list item s = .ok (things.map result) := by
  obtain ⟨items, hshape, hitems⟩ := h.list hs
  have hread : items.mapM item = .ok (things.map result) := by
    clear hs hshape
    induction hitems generalizing things with
    | nil =>
        obtain rfl := List.map_eq_nil_iff.mp htold.symm
        rfl
    | @cons s v items told hfirst hrest ih =>
        obtain ⟨a, rest, rfl, ha, htail⟩ := List.map_eq_cons_iff.mp htold.symm
        have hhead := hitem a (by simp) v s ha.symm hfirst
        have hmore := ih htail.symm fun b hb => hitem b (by simp [hb])
        simp [hhead, hmore]
  simp [Source.list, Source.items, hshape, hread]

end Source.Faithful

end Choreo
