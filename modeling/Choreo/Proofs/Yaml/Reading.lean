import Choreo.Proofs.Data.Buffering
import Choreo.Yaml.Reading

/-!
# YAML as a faithful source

Without tags and aliases a YAML tree that can be kept as a plain value is read at once as that value:
a scalar that means a flag, a text or nothing by itself means the same where it is asked for.
-/

namespace Choreo.Yaml

namespace Outline

mutual

/-- Without a tag and without an alias in all of it. -/
def isUnmarked : Outline → Bool
  | reference _ => false
  | scalar marks _ _ => marks.tag.isNone
  | list marks items => marks.tag.isNone && itemsAreUnmarked items
  | record marks entries => marks.tag.isNone && entriesAreUnmarked entries

def itemsAreUnmarked : List Outline → Bool
  | [] => true
  | o :: rest => o.isUnmarked && itemsAreUnmarked rest

def entriesAreUnmarked : List (Outline × Outline) → Bool
  | [] => true
  | (key, value) :: rest => key.isUnmarked && value.isUnmarked && entriesAreUnmarked rest

end

theorem itemsAreUnmarked_iff {items : List Outline} :
    itemsAreUnmarked items = true ↔ ∀ o ∈ items, o.isUnmarked = true := by
  induction items with
  | nil => simp [itemsAreUnmarked]
  | cons o rest ih => simp [itemsAreUnmarked, ih]

theorem entriesAreUnmarked_iff {entries : List (Outline × Outline)} :
    entriesAreUnmarked entries = true ↔
      ∀ e ∈ entries, e.1.isUnmarked = true ∧ e.2.isUnmarked = true := by
  induction entries with
  | nil => simp [entriesAreUnmarked]
  | cons e rest ih => simp [entriesAreUnmarked, ih]

end Outline

namespace Tree

/-- A tree without tags and aliases that stands for a plain value. -/
def Keeps (t : Tree) (v : Value) : Prop :=
  ∃ o, t.root = some o ∧ o.isUnmarked = true ∧ t.toValue = .ok v

/-! ### Scalars -/

theorem integerValue_ok {i : Resolution.Integer} {v : Value} (h : integerValue i = some (.ok v)) :
    v = .integer i.negative i.magnitude := by
  rw [integerValue] at h
  split at h
  · exact (Except.ok.inj (Option.some.inj h)).symm
  · split at h <;> cases h

/-- All that a plain scalar can mean. -/
theorem plainValue_cases {s : String} {v : Value} (h : plainValue s = .ok v) :
    (v = .null ∧ (s.isEmpty || Resolution.isNull s) = true) ∨
      (s.isEmpty || Resolution.isNull s) = false ∧
        ((∃ b, v = .flag b ∧ Resolution.flag? s = some b) ∨
          (∃ negative n, v = .integer negative n) ∨ (∃ x, v = .real x) ∨ v = .text s) := by
  rw [plainValue] at h
  split at h
  · next hblank => exact .inl ⟨(Except.ok.inj h).symm, hblank⟩
  next hsome =>
  refine .inr ⟨by simpa using hsome, ?_⟩
  split at h
  · next b hflag => exact .inl ⟨b, (Except.ok.inj h).symm, hflag⟩
  refine .inr ?_
  split at h
  · next hinteger =>
    obtain ⟨i, _, hi⟩ := Option.bind_eq_some_iff.mp hinteger
    rw [h] at hi
    exact .inl ⟨_, _, integerValue_ok hi⟩
  refine .inr ?_
  split at h
  · exact .inr (Except.ok.inj h).symm
  split at h
  · exact .inl ⟨_, (Except.ok.inj h).symm⟩
  · exact .inr (Except.ok.inj h).symm

theorem scalarValue_text {style : Style} {s t : String} (h : scalarValue none style s = .ok (.text t)) :
    t = s ∧ isAbsent none style s = .ok false := by
  rw [scalarValue] at h
  by_cases hplain : style = .plain
  · subst hplain
    obtain ⟨hnull, _⟩ | ⟨hsome, ⟨_, hflag, _⟩ | ⟨_, _, hinteger⟩ | ⟨_, hreal⟩ | htext⟩ :=
      plainValue_cases h
    · cases hnull
    · cases hflag
    · cases hinteger
    · cases hreal
    · exact ⟨Value.text.inj htext, by simp [isAbsent, hsome]⟩
  · simp [hplain] at h
    exact ⟨h.symm, by simp [isAbsent, hplain]⟩

theorem scalarValue_flag {style : Style} {s : String} {b : Bool}
    (h : scalarValue none style s = .ok (.flag b)) :
    style = .plain ∧ Resolution.flag? s = some b := by
  rw [scalarValue] at h
  by_cases hplain : style = .plain
  · subst hplain
    obtain ⟨hnull, _⟩ | ⟨hsome, ⟨_, hflag, hmeans⟩ | ⟨_, _, hinteger⟩ | ⟨_, hreal⟩ | htext⟩ :=
      plainValue_cases h
    · cases hnull
    · cases hflag
      exact ⟨rfl, hmeans⟩
    · cases hinteger
    · cases hreal
    · cases htext
  · simp [hplain] at h

/-- A scalar is a leaf of a plain value. -/
theorem scalarValue_leaf {style : Style} {s : String} {v : Value}
    (h : scalarValue none style s = .ok v) :
    (∀ items, v ≠ .list items) ∧ ∀ entries, v ≠ .record entries := by
  rw [scalarValue] at h
  by_cases hplain : style = .plain
  · subst hplain
    obtain ⟨rfl, _⟩ | ⟨_, ⟨_, rfl, _⟩ | ⟨_, _, rfl⟩ | ⟨_, rfl⟩ | rfl⟩ := plainValue_cases h <;> simp
  · obtain rfl : Value.text s = v := by simpa [hplain] using h
    simp

/-! ### Faces -/

variable {targets : Outline.Targets} {depth : Nat}

theorem valueOf_scalar (marks : Marks) (style : Style) (s : String) :
    valueOf targets depth (.scalar marks style s) = scalarValue marks.tag style s := by
  rw [valueOf]
  rfl

theorem valueOf_list {marks : Marks} {items : List Outline} {v : Value} (htag : marks.tag = none)
    (h : valueOf targets depth (.list marks items) = .ok v) :
    ∃ below values, depth = below + 1 ∧ v = .list values ∧
      items.mapM (valueOf targets below) = .ok values := by
  cases depth with
  | zero => rw [valueOf.eq_def] at h; cases h
  | succ below =>
      rw [valueOf.eq_def] at h
      simp only [Outline.resolve, htag, localName?] at h
      obtain ⟨values, hvalues, h⟩ := bind_eq_ok h
      exact ⟨below, values, rfl, (Except.ok.inj h).symm, hvalues⟩

theorem valueOf_record {marks : Marks} {entries : List (Outline × Outline)} {v : Value}
    (htag : marks.tag = none) (h : valueOf targets depth (.record marks entries) = .ok v) :
    ∃ below values, depth = below + 1 ∧ v = .record values ∧
      List.Forall₂ (fun e f => ∃ k, valueOf targets below e.1 = .ok k ∧ f.1 = keyOf k ∧
        valueOf targets below e.2 = .ok f.2) entries values := by
  cases depth with
  | zero => rw [valueOf.eq_def] at h; cases h
  | succ below =>
      rw [valueOf.eq_def] at h
      simp only [Outline.resolve, htag, localName?] at h
      obtain ⟨values, hvalues, h⟩ := bind_eq_ok h
      refine ⟨below, values, rfl, (Except.ok.inj h).symm, ?_⟩
      refine (forall₂_of_mapM hvalues).imp fun e f hentry => ?_
      obtain ⟨k, hk, hentry⟩ := bind_eq_ok hentry
      obtain ⟨v, hv, hentry⟩ := bind_eq_ok hentry
      obtain rfl := Except.ok.inj hentry
      exact ⟨k, hk, rfl, hv⟩

variable {t : Tree} {v : Value}

/-- What a tree without tags and aliases shows at its root, and what is below. -/
theorem face_of_keeps (h : Keeps t v) :
    (∃ style s, t.face = .scalar none style s ∧ scalarValue none style s = .ok v) ∨
      (∃ items values, v = .list values ∧ t.face = .list none items ∧
        List.Forall₂ Keeps items values) ∨
      ∃ entries values, v = .record values ∧ t.face = .record none entries ∧
        List.Forall₂ (fun e f => ∃ k, Keeps e.1 k ∧ f.1 = keyOf k ∧ Keeps e.2 f.2) entries values := by
  obtain ⟨targets, depth, _⟩ := t
  obtain ⟨o, rfl, hunmarked, hvalue⟩ := h
  change valueOf targets depth o = .ok v at hvalue
  cases o with
  | reference mark => cases hunmarked
  | scalar marks style s =>
      have htag : marks.tag = none := Option.isNone_iff_eq_none.mp hunmarked
      rw [valueOf_scalar, htag] at hvalue
      exact .inl ⟨style, s, by simp [face, Outline.resolve, htag], hvalue⟩
  | list marks items =>
      rw [Outline.isUnmarked, Bool.and_eq_true, Option.isNone_iff_eq_none,
        Outline.itemsAreUnmarked_iff] at hunmarked
      obtain ⟨htag, hitems⟩ := hunmarked
      obtain ⟨below, values, rfl, rfl, hvalues⟩ := valueOf_list htag hvalue
      have hface : face ⟨targets, below + 1, some (.list marks items)⟩ =
          .list none (items.map fun o => ⟨targets, below, some o⟩) := by
        rw [face, ← htag]
        rfl
      refine .inr (.inl ⟨_, values, rfl, hface, ?_⟩)
      rw [List.forall₂_map_left_iff]
      refine ((List.forall₂_and_left _ _).mpr ⟨hitems, forall₂_of_mapM hvalues⟩).imp ?_
      rintro o v ⟨hunmarked, hv⟩
      exact ⟨o, rfl, hunmarked, hv⟩
  | record marks entries =>
      rw [Outline.isUnmarked, Bool.and_eq_true, Option.isNone_iff_eq_none,
        Outline.entriesAreUnmarked_iff] at hunmarked
      obtain ⟨htag, hentries⟩ := hunmarked
      obtain ⟨below, values, rfl, rfl, hvalues⟩ := valueOf_record htag hvalue
      have hface : face ⟨targets, below + 1, some (.record marks entries)⟩ =
          .record none (entries.map fun e =>
            (⟨targets, below, some e.1⟩, ⟨targets, below, some e.2⟩)) := by
        rw [face, ← htag]
        rfl
      refine .inr (.inr ⟨_, values, rfl, hface, ?_⟩)
      rw [List.forall₂_map_left_iff]
      refine ((List.forall₂_and_left _ _).mpr ⟨hentries, hvalues⟩).imp ?_
      rintro e f ⟨⟨hkey, hcontent⟩, k, hk, hname, hv⟩
      exact ⟨k, ⟨e.1, rfl, hkey, hk⟩, hname, e.2, rfl, hcontent, hv⟩

theorem keyOf_eq_text {v : Value} {name : String} (h : keyOf v = .text name) : v = .text name := by
  cases v with
  | text s => rw [Key.text.inj h]
  | integer negative n => cases negative <;> cases h
  | _ => cases h

theorem face_of_text {s : String} (h : Keeps t (.text s)) :
    ∃ style, t.face = .scalar none style s ∧ isAbsent none style s = .ok false := by
  obtain ⟨style, _, hface, hvalue⟩ | ⟨_, _, hlist, _⟩ | ⟨_, _, hrecord, _⟩ := face_of_keeps h
  · obtain ⟨rfl, habsent⟩ := scalarValue_text hvalue
    exact ⟨style, hface, habsent⟩
  · cases hlist
  · cases hrecord

theorem key_of_text {s : String} (h : Keeps t (.text s)) : t.key = .text s := by
  obtain ⟨style, hface, _⟩ := face_of_text h
  rw [key, hface]

theorem face_of_flag {b : Bool} (h : Keeps t (.flag b)) :
    ∃ s, t.face = .scalar none .plain s ∧ Resolution.flag? s = some b := by
  obtain ⟨style, s, hface, hvalue⟩ | ⟨_, _, hlist, _⟩ | ⟨_, _, hrecord, _⟩ := face_of_keeps h
  · obtain ⟨rfl, hflag⟩ := scalarValue_flag hvalue
    exact ⟨s, hface, hflag⟩
  · cases hlist
  · cases hrecord

theorem face_of_list {values : List Value} (h : Keeps t (.list values)) :
    ∃ items, t.face = .list none items ∧ List.Forall₂ Keeps items values := by
  obtain ⟨_, _, _, hvalue⟩ | ⟨items, _, hlist, hface, hitems⟩ | ⟨_, _, hrecord, _⟩ := face_of_keeps h
  · exact absurd rfl ((scalarValue_leaf hvalue).1 values)
  · obtain rfl := Value.list.inj hlist
    exact ⟨items, hface, hitems⟩
  · cases hrecord

theorem face_of_object {fields : List (String × Value)} (h : Keeps t (.object fields)) :
    ∃ entries, t.face = .record none entries ∧
      List.Forall₂ (fun e f => e.1.key = .text f.1 ∧ Keeps e.2 f.2) entries fields := by
  obtain ⟨_, _, _, hvalue⟩ | ⟨_, _, hlist, _⟩ | ⟨entries, _, hrecord, hface, hentries⟩ :=
    face_of_keeps h
  · exact absurd rfl ((scalarValue_leaf hvalue).2 _)
  · cases hlist
  · rw [← Value.record.inj hrecord] at hentries
    refine ⟨entries, hface, ?_⟩
    rw [List.forall₂_map_right_iff] at hentries
    refine hentries.imp ?_
    rintro e f ⟨k, hk, hname, hv⟩
    rw [keyOf_eq_text hname.symm] at hk
    exact ⟨key_of_text hk, hv⟩

theorem faithful : Source.Faithful Keeps where
  buffer h := h.choose_spec.2.2
  text h := by
    obtain ⟨style, hface, habsent⟩ := face_of_text h
    simp [Source.isNull, Source.text, scalar, hface, habsent]
  flag h := by
    obtain ⟨s, hface, hflag⟩ := face_of_flag h
    simp [Source.flag, scalar, hface, isBare, orFail, hflag]
  list h := by
    obtain ⟨items, hface, hitems⟩ := face_of_list h
    exact ⟨items, by simp [Source.shape, shape, hface], hitems⟩
  object h := by
    obtain ⟨entries, hface, hentries⟩ := face_of_object h
    refine ⟨entries.map fun e => (e.1.key, e.2), by simp [Source.shape, shape, hface], ?_⟩
    rw [List.forall₂_map_left_iff]
    exact hentries
  choice h := by
    obtain ⟨entries, hface, hentries⟩ := face_of_object h
    obtain ⟨⟨k, content⟩, rest, ⟨hkey, hcontent⟩, hrest, rfl⟩ :=
      List.forall₂_cons_right_iff.mp hentries
    obtain rfl := List.forall₂_nil_right_iff.mp hrest
    exact ⟨content, by simp [Source.choice, choice, hface, localName?, hkey], hcontent⟩

/-! ### What a tree holds -/

/-- The value that a tree without tags and aliases holds, up to the precision of a text. -/
def content? (t : Tree) : Option Value :=
  if t.root.any Outline.isUnmarked then t.toValue.toOption.map Value.narrowed else none

theorem keeps_of_content (h : t.content? = some v) : ∃ w, Keeps t w ∧ w.narrowed = v := by
  rw [content?] at h
  cases hroot : t.root with
  | none => simp [hroot] at h
  | some o =>
      cases hunmarked : o.isUnmarked with
      | false => simp [hroot, hunmarked] at h
      | true =>
          cases hvalue : t.toValue with
          | error e => simp [hvalue, Except.toOption] at h
          | ok w =>
              have hw : w.narrowed = v := by
                simpa [hroot, hunmarked, hvalue, Except.toOption] using h
              exact ⟨w, ⟨o, hroot, hunmarked, hvalue⟩, hw⟩

end Tree

end Choreo.Yaml
