import Choreo.Proofs.Data.KeyOrder
import Choreo.Schema.Records
import Mathlib.Data.List.Pairwise

/-!
# The order of keys in a record

The fields of a record may be read in any order: each stores what it reads in a place of its own, and
a key that is none of them is passed over. So a map of fields is read alike in every order of its
keys, and a list of fields in every order of the keys inside its items. A path names its shape in a
key of its map, which may stand in front of the fields of the shape or behind them.
-/

namespace Choreo

open Value

variable {α β : Type}

namespace Field

/-- The field is read alike before a change of the record and after it. -/
def Passes (f : Field Value α) (change : α → α) : Prop :=
  ∀ v a, f.read v (change a) = change <$> f.read v a

variable {name : String} {read : Value → Except DecodeError β} {store : β → α → α} {change : α → α}

@[simp]
theorem passes_required (h : ∀ b a, store b (change a) = change (store b a)) :
    (required name read store).Passes change := by
  intro v a
  simp only [required, Functor.map_map, h]

@[simp]
theorem passes_optional (h : ∀ b a, store b (change a) = change (store b a)) :
    (optional name read store).Passes change := by
  intro v a
  simp only [optional, Functor.map_map, h]

/-- Fields that may be read in any order, from values with their keys in any order. -/
inductive Orderless : List (Field Value α) → Prop
  | nil : Orderless []
  | required {γ : Type} {name : String} {read : Value → Except DecodeError γ} {store : γ → α → α}
      {fields : List (Field Value α)} (hread : Blind read)
      (hstore : ∀ f ∈ fields, ∀ b, f.Passes (store b)) (hrest : Orderless fields) :
      Orderless (.required name read store :: fields)
  | optional {γ : Type} {name : String} {read : Value → Except DecodeError γ} {store : γ → α → α}
      {fields : List (Field Value α)} (hread : Blind read)
      (hstore : ∀ f ∈ fields, ∀ b, f.Passes (store b)) (hrest : Orderless fields) :
      Orderless (.optional name read store :: fields)

/-- Either of the fields may be read first. -/
def Commute (f g : Field Value α) : Prop :=
  ∀ v w a, Concur (f.read v a >>= g.read w) (g.read w a >>= f.read v)

instance : Std.Symm (@Commute α) := ⟨fun _ _ h v w a => (h w v a).symm⟩

theorem commute_of_passes {f g : Field Value α} (hf : ∀ v, f.read v = fun a => (store · a) <$> read v)
    (h : ∀ b, g.Passes (store b)) : f.Commute g := by
  intro v w a
  rw [hf]
  cases read v with
  | ok b =>
      change Concur (g.read w (store b a)) _
      rw [h]
      cases g.read w a <;> exact Concur.refl _
  | error e => cases g.read w a <;> exact .error _ _

variable {fields : List (Field Value α)}

theorem Orderless.blind (h : Orderless fields) {f : Field Value α} (hf : f ∈ fields) (a : α) :
    Blind (f.read · a) := by
  induction h with
  | nil => exact absurd hf List.not_mem_nil
  | required hread _ _ ih | optional hread _ _ ih =>
      rcases List.mem_cons.mp hf with rfl | hf
      · exact hread.map _
      · exact ih hf

theorem Orderless.commute (h : Orderless fields) : fields.Pairwise Commute := by
  induction h with
  | nil => exact .nil
  | required _ hstore _ ih | optional _ hstore _ ih =>
      exact .cons (fun g hg => commute_of_passes (fun _ => rfl) (hstore g hg)) ih

end Field

namespace Schema

variable (r : Schema Value α)

/-- The names of the fields. -/
def names : List String := r.fields.map (·.name)

variable {r}

theorem field?_text_eq_none {name : String} (h : name ∉ r.names) :
    r.field? (.text name) = .ok none := by
  have hnone : r.fields.find? (·.name == name) = none := by
    rw [List.find?_eq_none]
    intro f hf hname
    exact h (List.mem_map.mpr ⟨f, hf, by simpa using hname⟩)
  rw [field?, hnone]
  rfl

theorem mem_of_field? {key : Key} {f : Field Value α} (h : r.field? key = .ok (some f)) :
    f ∈ r.fields := by
  cases key with
  | text name => exact List.mem_of_find?_eq_some (Except.ok.inj h)
  | index place => exact List.mem_of_getElem? (Except.ok.inj h)
  | unreadable => cases h

/-! ### Entries -/

variable {progress : List String × α} {e e' : Key × Value} {f f' : Field Value α}

theorem readEntry_of_error {fault : DecodeError} (h : r.field? e.1 = .error fault) :
    r.readEntry progress e = .error fault := by
  rw [readEntry, h]
  rfl

theorem readEntry_of_none (h : r.field? e.1 = .ok none) :
    r.readEntry progress e = .ok progress := by
  rw [readEntry, h]
  rfl

theorem readEntry_of_seen (h : r.field? e.1 = .ok (some f)) (hseen : f.name ∈ progress.1) :
    r.readEntry progress e = .error (.duplicateField f.name) := by
  simp only [readEntry, h, ok_bind, if_pos hseen]
  rfl

theorem readEntry_of_unseen (h : r.field? e.1 = .ok (some f)) (hunseen : f.name ∉ progress.1) :
    r.readEntry progress e = (fun a => (f.name :: progress.1, a)) <$> f.read e.2 progress.2 := by
  simp only [readEntry, h, ok_bind, if_neg hunseen]
  rfl

/-- The same fields have been read, and the same has come of them. -/
def SameProgress (p q : List String × α) : Prop := p.1.Perm q.1 ∧ p.2 = q.2

theorem refl_sameProgress (x : Except DecodeError (List String × α)) :
    ConcurUpTo SameProgress x x := .refl (fun _ => ⟨.refl _, rfl⟩) x

theorem symm_sameProgress {x y : Except DecodeError (List String × α)}
    (h : ConcurUpTo SameProgress x y) : ConcurUpTo SameProgress y x :=
  h.symm fun _ _ ⟨hseen, hsame⟩ => ⟨hseen.symm, hsame.symm⟩

theorem readEntry_congr {p q : List String × α} (h : SameProgress p q) (e : Key × Value) :
    ConcurUpTo SameProgress (r.readEntry p e) (r.readEntry q e) := by
  obtain ⟨hseen, hsame⟩ := h
  rcases hfield : r.field? e.1 with fault | _ | f
  · rw [readEntry_of_error hfield, readEntry_of_error hfield]
    exact .error _ _
  · rw [readEntry_of_none hfield, readEntry_of_none hfield]
    exact .ok ⟨hseen, hsame⟩
  · by_cases hp : f.name ∈ p.1
    · rw [readEntry_of_seen hfield hp, readEntry_of_seen hfield (hseen.mem_iff.mp hp)]
      exact .error _ _
    · rw [readEntry_of_unseen hfield hp, readEntry_of_unseen hfield (mt hseen.mem_iff.mpr hp), hsame]
      cases f.read e.2 q.2 with
      | ok a => exact .ok ⟨hseen.cons _, rfl⟩
      | error fault => exact .error _ _

/-- What has been seen stays seen. -/
theorem subset_of_readEntry {next : List String × α} (h : r.readEntry progress e = .ok next) :
    progress.1 ⊆ next.1 := by
  rcases hfield : r.field? e.1 with fault | _ | f
  · rw [readEntry_of_error hfield] at h
    cases h
  · rw [readEntry_of_none hfield] at h
    exact Except.ok.inj h ▸ List.Subset.refl _
  · by_cases hseen : f.name ∈ progress.1
    · rw [readEntry_of_seen hfield hseen] at h
      cases h
    · rw [readEntry_of_unseen hfield hseen] at h
      cases hread : f.read e.2 progress.2 with
      | error fault => rw [hread] at h; cases h
      | ok a =>
          rw [hread] at h
          exact Except.ok.inj h ▸ List.subset_cons_self _ _

/-- An entry that cannot be read now cannot be read after another one. -/
theorem readEntry_bind_error
    (h : ∀ next : List String × α, progress.1 ⊆ next.1 → ∃ fault, r.readEntry next e = .error fault) :
    ∃ fault, (r.readEntry progress e' >>= (r.readEntry · e)) = .error fault := by
  cases hstep : r.readEntry progress e' with
  | error fault => exact ⟨fault, rfl⟩
  | ok next => exact h next (subset_of_readEntry hstep)

theorem readEntry_swap_of_error
    (h : ∀ next : List String × α, progress.1 ⊆ next.1 → ∃ fault, r.readEntry next e = .error fault) :
    ConcurUpTo SameProgress (r.readEntry progress e >>= (r.readEntry · e'))
      (r.readEntry progress e' >>= (r.readEntry · e)) := by
  obtain ⟨fault, hfault⟩ := h progress (List.Subset.refl _)
  obtain ⟨fault', hfault'⟩ := readEntry_bind_error h
  rw [hfault, hfault']
  exact .error _ _

theorem readEntry_swap (h : Field.Orderless r.fields) (progress : List String × α)
    (e e' : Key × Value) :
    ConcurUpTo SameProgress (r.readEntry progress e >>= (r.readEntry · e'))
      (r.readEntry progress e' >>= (r.readEntry · e)) := by
  rcases hfield : r.field? e.1 with fault | _ | f
  · exact readEntry_swap_of_error fun _ _ => ⟨_, readEntry_of_error hfield⟩
  · have hpass : ∀ p, r.readEntry p e = .ok p := fun p => readEntry_of_none hfield
    simp only [hpass, ok_bind]
    exact (bind_pure (r.readEntry progress e')).symm ▸ refl_sameProgress _
  rcases hfield' : r.field? e'.1 with fault | _ | f'
  · exact symm_sameProgress (readEntry_swap_of_error fun _ _ => ⟨_, readEntry_of_error hfield'⟩)
  · have hpass : ∀ p, r.readEntry p e' = .ok p := fun p => readEntry_of_none hfield'
    simp only [hpass, ok_bind]
    exact (bind_pure (r.readEntry progress e)).symm ▸ refl_sameProgress _
  by_cases hseen : f.name ∈ progress.1
  · exact readEntry_swap_of_error fun _ hnext => ⟨_, readEntry_of_seen hfield (hnext hseen)⟩
  by_cases hseen' : f'.name ∈ progress.1
  · exact symm_sameProgress <|
      readEntry_swap_of_error fun _ hnext => ⟨_, readEntry_of_seen hfield' (hnext hseen')⟩
  rw [readEntry_of_unseen hfield hseen, readEntry_of_unseen hfield' hseen', bind_map_left,
    bind_map_left]
  by_cases hname : f.name = f'.name
  -- Whichever of two entries for one field comes second is refused.
  · have htwice : ∀ a : α, f'.name ∈ (f.name :: progress.1, a).1 := by simp [hname]
    have htwice' : ∀ a : α, f.name ∈ (f'.name :: progress.1, a).1 := by simp [hname]
    simp only [readEntry_of_seen hfield' (htwice _), readEntry_of_seen hfield (htwice' _)]
    cases f.read e.2 progress.2 <;> cases f'.read e'.2 progress.2 <;> exact .error _ _
  · have hcommute := h.commute.forall (mem_of_field? hfield) (mem_of_field? hfield')
      (fun heq => hname (congrArg Field.name heq)) e.2 e'.2 progress.2
    have hother : ∀ a : α, f'.name ∉ (f.name :: progress.1, a).1 := by simp [hseen', Ne.symm hname]
    have hother' : ∀ a : α, f.name ∉ (f'.name :: progress.1, a).1 := by simp [hseen, hname]
    simp only [readEntry_of_unseen hfield' (hother _), readEntry_of_unseen hfield (hother' _),
      ← map_bind]
    exact ConcurUpTo.map hcommute fun _ _ hsame => ⟨.swap _ _ _, hsame⟩

theorem missing?_congr {seen seen' : List String} (h : seen.Perm seen') :
    r.missing? seen = r.missing? seen' := by
  simp only [missing?, h.mem_iff]

/-- A map of fields is read alike in every order of its keys. -/
theorem readEntries_perm (h : Field.Orderless r.fields) {before after : List (Key × Value)}
    (hperm : before.Perm after) :
    Concur (r.readEntries ⟨before, .ok ()⟩) (r.readEntries ⟨after, .ok ()⟩) := by
  have hfold := ConcurUpTo.foldlM_perm (fun p => ⟨.refl p.1, rfl⟩)
    (fun _ _ _ h h' => ⟨h.1.trans h'.1, h.2.trans h'.2⟩) (fun _ _ e hpq => readEntry_congr hpq e)
    (readEntry_swap h) hperm ([], r.blank)
  refine hfold.bind ?_
  rintro ⟨seen, a⟩ ⟨seen', b⟩ ⟨hseen, hsame⟩
  obtain rfl : a = b := hsame
  have hmissing : r.missing? seen = r.missing? seen' := missing?_congr hseen
  simp only [hmissing]
  exact Concur.refl _

/-- Two fields of one name, of which the same is read, each from a value of its own. -/
def SameField (v w : Value) (f g : Field Value α) : Prop :=
  f.name = g.name ∧ ∀ a, Concur (f.read v a) (g.read w a)

/-- Entries are read alike, if they are for fields that are. -/
theorem readEntry_alike {r r' : Schema Value α} {e e' : Key × Value}
    (h : ConcurUpTo (Option.Rel (SameField e.2 e'.2)) (r.field? e.1) (r'.field? e'.1))
    (progress : List String × α) :
    Concur (r.readEntry progress e) (r'.readEntry progress e') := by
  generalize hfield : r.field? e.1 = found, hfield' : r'.field? e'.1 = found' at h
  rcases h with (⟨hname, hread⟩ | _) | _
  · rename_i f f'
    by_cases hseen : f.name ∈ progress.1
    · rw [readEntry_of_seen hfield hseen, readEntry_of_seen hfield' (hname ▸ hseen)]
      exact .error _ _
    · rw [readEntry_of_unseen hfield hseen, readEntry_of_unseen hfield' (hname ▸ hseen), hname]
      exact (hread _).map _
  · rw [readEntry_of_none hfield, readEntry_of_none hfield']
    exact Concur.refl _
  · rw [readEntry_of_error hfield, readEntry_of_error hfield']
    exact .error _ _

/-- An entry may be read otherwise, if the field that it is for reads it alike. -/
theorem readEntries_replace {key : Key} {v w : Value}
    (h : ∀ f, r.field? key = .ok (some f) → ∀ a, Concur (f.read v a) (f.read w a))
    (left right : List (Key × Value)) :
    Concur (r.readEntries ⟨left ++ (key, v) :: right, .ok ()⟩)
      (r.readEntries ⟨left ++ (key, w) :: right, .ok ()⟩) := by
  have hfield : ConcurUpTo (Option.Rel (SameField v w)) (r.field? key) (r.field? key) := by
    rcases hkey : r.field? key with fault | _ | f
    · exact .error _ _
    · exact .ok .none
    · exact .ok (.some ⟨rfl, h f hkey⟩)
  exact (Concur.foldlM_replace (readEntry_alike hfield) left right _).bind fun _ => Concur.refl _

/-- An entry for no field is passed over. -/
theorem readEntries_pass {name : String} (h : name ∉ r.names) (v : Value)
    (left right : List (Key × Value)) :
    r.readEntries ⟨left ++ (.text name, v) :: right, .ok ()⟩ =
      r.readEntries ⟨left ++ right, .ok ()⟩ := by
  have hpass : ∀ p, r.readEntry p (.text name, v) = .ok p :=
    fun p => readEntry_of_none (field?_text_eq_none h)
  simp only [readEntries, List.foldlM_append, List.foldlM_cons, hpass, ok_bind]

/-! ### Items -/

theorem readPlaces_closing {list list' : Items Value} (h : list.closing = list'.closing)
    (fields : List (Field Value α)) (items : List Value) (taken : Nat) (a : α) :
    r.readPlaces list fields items taken a = r.readPlaces list' fields items taken a := by
  induction fields generalizing items taken a with
  | nil => rfl
  | cons field fields ih =>
      cases items with
      | nil => rw [readPlaces, readPlaces, h]
      | cons s items =>
          rw [readPlaces, readPlaces]
          exact congrArg _ (funext fun b => ih items _ b)

theorem readPlaces_replace {fields : List (Field Value α)}
    (hblind : ∀ f ∈ fields, ∀ a, Blind (f.read · a)) {v w : Value} (hvw : v.Reordered w)
    (list list' : Items Value) (hclosing : list.closing = list'.closing) (left right : List Value)
    (taken : Nat) (a : α) :
    ConcurUpTo (fun p q => p.1.isEmpty = q.1.isEmpty ∧ p.2 = q.2)
      (r.readPlaces list fields (left ++ v :: right) taken a)
      (r.readPlaces list' fields (left ++ w :: right) taken a) := by
  induction fields generalizing left taken a with
  | nil => exact .ok ⟨by cases left <;> rfl, rfl⟩
  | cons field fields ih =>
      cases left with
      | nil =>
          refine ConcurUpTo.bind (hblind field (by simp) a hvw) ?_
          rintro b _ rfl
          rw [readPlaces_closing hclosing]
          exact .refl (fun _ => ⟨rfl, rfl⟩) _
      | cons s left =>
          have hrest := ih (fun f hf => hblind f (by simp [hf])) left (taken + 1)
          refine ConcurUpTo.bind (Concur.refl (field.read s a)) ?_
          rintro b _ rfl
          exact hrest b

/-- A list of fields is read alike, if one of its items has its keys in another order. -/
theorem readItems_replace (h : Field.Orderless r.fields) {v w : Value} (hvw : v.Reordered w)
    (left right : List Value) :
    Concur (r.readItems ⟨left ++ v :: right, .ok ()⟩)
      (r.readItems ⟨left ++ w :: right, .ok ()⟩) := by
  have hplaces := readPlaces_replace (r := r) (fun f hf => h.blind hf) hvw
    ⟨left ++ v :: right, .ok ()⟩ ⟨left ++ w :: right, .ok ()⟩ rfl left right 0 r.blank
  refine hplaces.bind ?_
  rintro ⟨rest, a⟩ ⟨rest', _⟩ ⟨hrest, rfl⟩
  simp only [hrest, List.length_append, List.length_cons]
  exact Concur.refl _

theorem readEntries_entry (h : Field.Orderless r.fields) {v w : Value} (hvw : v.Reordered w)
    (left : List (Key × Value)) (key : Key) (right : List (Key × Value)) :
    Concur (r.readEntries ⟨left ++ (key, v) :: right, .ok ()⟩)
      (r.readEntries ⟨left ++ (key, w) :: right, .ok ()⟩) :=
  readEntries_replace (fun _ hf a => h.blind (mem_of_field? hf) a hvw) left right

theorem blind_read (h : Field.Orderless r.fields) : Blind r.read := by
  intro v w hvw
  cases hvw with
  | entries hperm => exact readEntries_perm h hperm
  | item left right hvw => exact readItems_replace h hvw left right
  | entry left key right hvw => exact readEntries_entry h hvw left key right

end Schema

/-! ### Vectors and curves -/

theorem Planar.orderless : Field.Orderless (Planar.schema : Schema Value Planar).fields :=
  .required blind_single (by simp) (.required blind_single (by simp) .nil)

theorem blind_planar : Blind (decode : Value → Except DecodeError Planar) :=
  Schema.blind_read Planar.orderless

theorem blind_aim : Blind (decode : Value → Except DecodeError Aim) := blind_oneOf _ _

theorem Polyline.orderless : Field.Orderless (Polyline.schema : Schema Value Polyline).fields :=
  .required blind_planar.list (by simp) .nil

theorem Cubic.orderless : Field.Orderless (Cubic.schema : Schema Value Cubic).fields :=
  .required blind_planar (by simp) (.required blind_planar (by simp)
    (.required blind_planar (by simp) (.required blind_planar (by simp) .nil)))

theorem blind_cubic : Blind (decode : Value → Except DecodeError Cubic) :=
  Schema.blind_read Cubic.orderless

theorem Bezier.orderless : Field.Orderless (Bezier.schema : Schema Value Bezier).fields :=
  .required blind_cubic.list (by simp) .nil

theorem blind_bezier : Blind (decode : Value → Except DecodeError Bezier) :=
  Schema.blind_read Bezier.orderless

/-! ### Tags -/

namespace Source

/-- Which of the names stands in a value. -/
def placeOf (names : List String) (v : Value) : Except DecodeError (Fin names.length) :=
  name v >>= known names

variable {tag : String} {names : List String} {entries others : List (Key × Value)}

theorem splitTag_go_eq_ok {found result : Option (Fin names.length)} :
    splitTag.go tag names found entries = .ok (result, others) ↔
      Readable entries ∧ without [tag] entries = others ∧
        match found with
        | none => Sole (placeOf names) (under tag entries) result
        | some _ => under tag entries = [] ∧ found = result := by
  -- What has stood under the tag so far varies along the entries.
  induction entries generalizing found others with
  | nil =>
      cases found <;> simp [splitTag.go, Readable, without, under, Sole.nil_iff, and_comm, eq_comm]
  | cons e entries ih =>
      obtain ⟨key, v⟩ := e
      rw [readable_cons]
      by_cases hkey : key = .unreadable
      · simp [splitTag.go, hkey]
      by_cases htag : key = .text tag
      · subst htag
        rw [under_cons_self, without_cons_of_mem (by simp)]
        cases found with
        | some place => simp [splitTag.go]
        | none =>
            have hgo : splitTag.go tag names none ((.text tag, v) :: entries) =
                placeOf names v >>= fun place => splitTag.go tag names (some place) entries := by
              simp [splitTag.go, placeOf]
            simp only [hgo, bind_eq_ok_iff, ih, Sole.cons_iff]
            constructor
            · rintro ⟨place, hplace, hreadable, hothers, hunder, rfl⟩
              exact ⟨⟨hkey, hreadable⟩, hothers, hunder, place, hplace, rfl⟩
            · rintro ⟨⟨_, hreadable⟩, hothers, hunder, place, hplace, rfl⟩
              exact ⟨place, hplace, hreadable, hothers, hunder, rfl⟩
      · have hgo : splitTag.go tag names found ((key, v) :: entries) =
            (fun rest => (rest.1, (key, v) :: rest.2)) <$> splitTag.go tag names found entries := by
          rw [splitTag.go, if_neg hkey, if_neg htag, map_eq_pure_bind]
          rfl
        rw [under_cons_of_ne htag, without_cons_of_ne (by simpa using htag), hgo, map_eq_ok_iff]
        constructor
        · rintro ⟨⟨place, rest⟩, hrest, heq⟩
          obtain ⟨rfl, rfl⟩ := Prod.mk.inj heq
          obtain ⟨hreadable, rfl, hfound⟩ := ih.mp hrest
          exact ⟨⟨hkey, hreadable⟩, rfl, hfound⟩
        · rintro ⟨⟨_, hreadable⟩, rfl, hfound⟩
          exact ⟨(result, _), ih.mpr ⟨hreadable, rfl, hfound⟩, rfl⟩

theorem splitTag_eq_ok {found : Option (Fin names.length)} :
    splitTag tag names entries = .ok (found, others) ↔
      Readable entries ∧ Sole (placeOf names) (under tag entries) found ∧
        without [tag] entries = others := by
  rw [splitTag, splitTag_go_eq_ok]
  tauto

end Source

/-! ### Paths -/

namespace Path

theorem ofEntries_perm {before after : List (Key × Value)} (h : before.Perm after) (shape : Nat) :
    Concur (ofEntries ⟨before, .ok ()⟩ shape) (ofEntries ⟨after, .ok ()⟩ shape) := by
  rw [ofEntries, ofEntries]
  split
  · exact (Schema.readEntries_perm Polyline.orderless h).map _
  · exact (Schema.readEntries_perm Bezier.orderless h).map _

theorem ofEntries_replace {v w : Value} (h : v.Reordered w) (shape : Nat) (key : Key)
    (left right : List (Key × Value)) :
    Concur (ofEntries ⟨left ++ (key, v) :: right, .ok ()⟩ shape)
      (ofEntries ⟨left ++ (key, w) :: right, .ok ()⟩ shape) := by
  rw [ofEntries, ofEntries]
  split
  · exact (Schema.readEntries_entry Polyline.orderless h left key right).map _
  · exact (Schema.readEntries_entry Bezier.orderless h left key right).map _

theorem ofItems_replace {v w : Value} (h : v.Reordered w) (shape : Nat) (left right : List Value) :
    Concur (ofItems ⟨left ++ v :: right, .ok ()⟩ shape)
      (ofItems ⟨left ++ w :: right, .ok ()⟩ shape) := by
  rw [ofItems, ofItems]
  split
  · exact (Schema.readItems_replace Polyline.orderless h left right).map _
  · exact (Schema.readItems_replace Bezier.orderless h left right).map _

/-- A path in a map: its shape stands under its name, and its fields under the others. -/
theorem read_record_eq_ok {entries : List (Key × Value)} {p : Path} :
    read (Value.record entries) = .ok p ↔
      ∃ place, Readable entries ∧
        Sole (Source.placeOf shapes) (under "shape" entries) (some place) ∧
        ofEntries ⟨without ["shape"] entries, .ok ()⟩ place = .ok p := by
  have hread : read (Value.record entries) = Source.splitTag "shape" shapes entries >>= fun split =>
      split.1.elim (throw (.missingField "shape")) (ofEntries ⟨split.2, .ok ()⟩ ·) := by
    refine congrArg (Source.splitTag "shape" shapes entries >>= ·) (funext fun split => ?_)
    obtain ⟨_ | place, others⟩ := split <;> rfl
  rw [hread, bind_eq_ok_iff]
  constructor
  · rintro ⟨⟨_ | place, others⟩, hsplit, hp⟩
    · cases hp
    · obtain ⟨hreadable, hshape, rfl⟩ := Source.splitTag_eq_ok.mp hsplit
      exact ⟨place, hreadable, hshape, hp⟩
  · rintro ⟨place, hreadable, hshape, hp⟩
    exact ⟨(some place, _), Source.splitTag_eq_ok.mpr ⟨hreadable, hshape, rfl⟩, hp⟩

theorem read_perm {before after : List (Key × Value)} (hperm : before.Perm after) :
    Concur (read (Value.record before)) (read (Value.record after)) := by
  refine Concur.iff.mpr fun p => ?_
  simp only [read_record_eq_ok, Readable.perm hperm, Sole.perm (under_perm hperm),
    Concur.iff.mp (ofEntries_perm (without_perm hperm) _)]

theorem read_entry {v w : Value} (hvw : v.Reordered w) (left : List (Key × Value)) (key : Key)
    (right : List (Key × Value)) :
    Concur (read (Value.record (left ++ (key, v) :: right)))
      (read (Value.record (left ++ (key, w) :: right))) := by
  have hplace : Concur (Source.placeOf shapes v) (Source.placeOf shapes w) :=
    hvw.kindred.name.bind fun _ => Concur.refl _
  have hothers (shape : Nat) :
      Concur (ofEntries ⟨without ["shape"] (left ++ (key, v) :: right), .ok ()⟩ shape)
        (ofEntries ⟨without ["shape"] (left ++ (key, w) :: right), .ok ()⟩ shape) :=
    concur_without _ (fun entries => ofEntries ⟨entries, .ok ()⟩ shape) fun left right =>
      ofEntries_replace hvw shape key left right
  refine Concur.iff.mpr fun p => ?_
  rw [read_record_eq_ok, read_record_eq_ok, @Readable.replace left right key v w]
  simp only [Sole.replace_entry hplace, Concur.iff.mp (hothers _)]

theorem mapM_buffer (items : List Value) : items.mapM Source.buffer = .ok items := by
  induction items with
  | nil => rfl
  | cons v items ih => rw [List.mapM_cons, ih]; rfl

/-- A path in a list: its shape stands at the head. -/
theorem read_list_cons (first : Value) (rest : List Value) :
    read (Value.list (first :: rest)) =
      Source.placeOf shapes first >>= fun place => ofItems ⟨rest, .ok ()⟩ place := by
  have hread : read (Value.list (first :: rest)) = Source.name first >>= fun key =>
      Source.known shapes key >>= fun place =>
        rest.mapM Source.buffer >>= fun others => ofItems ⟨others, .ok ()⟩ place := rfl
  rw [hread, mapM_buffer, Source.placeOf, bind_assoc]
  rfl

end Path

theorem blind_path : Blind (decode : Value → Except DecodeError Path) := by
  intro v w h
  change Concur (Path.read v) (Path.read w)
  cases h with
  | entries hperm => exact Path.read_perm hperm
  | entry left key right hvw => exact Path.read_entry hvw left key right
  | item left right hvw =>
      cases left with
      | nil =>
          rw [List.nil_append, List.nil_append, Path.read_list_cons, Path.read_list_cons]
          cases hvw <;> exact .error _ _
      | cons first left =>
          rw [List.cons_append, List.cons_append, Path.read_list_cons, Path.read_list_cons]
          exact (Concur.refl _).bind fun place => Path.ofItems_replace hvw place left right

end Choreo
