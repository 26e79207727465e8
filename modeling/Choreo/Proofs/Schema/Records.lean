import Choreo.Proofs.Data.Buffering
import Choreo.Schema.Records

/-!
# Reading back records

A record that is written as a map of all its fields in declared order is read as the list of them
would be. Each of the records that a script is made of is then given back by what was written of it.
-/

namespace Choreo

namespace Schema

variable {σ α : Type} (r : Schema σ α)

theorem field?_of_append {done rest : List (Field σ α)} {field : Field σ α}
    (hfields : r.fields = done ++ field :: rest) (hfresh : field.name ∉ done.map (·.name)) :
    r.field? (.text field.name) = .ok (some field) := by
  have hdone : done.find? (·.name == field.name) = none := by
    rw [List.find?_eq_none]
    intro f hf hname
    exact hfresh (List.mem_map.mpr ⟨f, hf, by simpa using hname⟩)
  simp [field?, hfields, List.find?_append, hdone]

/-- An entry for the next field reads that field and notes that it has been read. -/
theorem readEntry_next {done rest : List (Field σ α)} {field : Field σ α}
    (hfields : r.fields = done ++ field :: rest) (hfresh : field.name ∉ done.map (·.name)) (s : σ)
    (a : α) :
    r.readEntry ((done.map (·.name)).reverse, a) (.text field.name, s) =
      (fun b => (((done ++ [field]).map (·.name)).reverse, b)) <$> field.read s a := by
  have hunseen : field.name ∉ (done.map (·.name)).reverse := by rwa [List.mem_reverse]
  simp only [readEntry, r.field?_of_append hfields hfresh, ok_bind, if_neg hunseen]
  cases field.read s a <;> simp

/-- Entries and places are used up together, and the names of the fields that have been read are the
first of the record. -/
theorem foldlM_readEntry (hnodup : (r.fields.map (·.name)).Nodup) (list : Items σ)
    {rest : List (Field σ α)} (done : List (Field σ α)) (hfields : r.fields = done ++ rest)
    {told : List (String × σ)} (htold : told.map (·.1) = rest.map (·.name)) (taken : Nat) (a : α) :
    (Value.named told).foldlM r.readEntry ((done.map (·.name)).reverse, a) =
      (fun read => ((r.fields.map (·.name)).reverse, read.2)) <$>
        r.readPlaces list rest (told.map (·.2)) taken a := by
  induction rest generalizing done told taken a with
  | nil =>
      obtain rfl := List.map_eq_nil_iff.mp htold
      simp [readPlaces, hfields, Value.named]
  | cons field rest ih =>
      obtain ⟨⟨name, s⟩, told, rfl, rfl, hrest⟩ := List.map_eq_cons_iff.mp htold
      have hfresh : field.name ∉ done.map (·.name) := by
        rw [hfields, List.map_append, List.map_cons, List.nodup_middle, List.nodup_cons] at hnodup
        exact fun hmem => hnodup.1 (List.mem_append_left _ hmem)
      have hnext := ih (done ++ [field]) (by simp [hfields]) hrest (taken + 1)
      rw [Value.named, List.map_cons, ← Value.named, List.foldlM_cons,
        r.readEntry_next hfields hfresh, List.map_cons, readPlaces]
      cases field.read s a with
      | error e => rfl
      | ok b => exact hnext b

theorem readPlaces_exact {list : Items σ} {fields : List (Field σ α)} {told : List σ}
    (hlength : told.length = fields.length) {taken : Nat} {a : α} {read : List σ × α}
    (hread : r.readPlaces list fields told taken a = .ok read) : read.1 = [] := by
  induction fields generalizing told taken a with
  | nil =>
      obtain rfl := List.length_eq_zero_iff.mp hlength
      obtain rfl := Except.ok.inj hread
      rfl
  | cons field fields ih =>
      obtain ⟨s, told, rfl⟩ := List.exists_cons_of_length_eq_add_one hlength
      rw [readPlaces] at hread
      cases hfield : field.read s a with
      | error e => simp [hfield] at hread
      | ok b => exact ih (Nat.succ.inj hlength) (by simpa [hfield] using hread)

/-- A map of all the fields in order is as good as the list of them. -/
theorem readEntries_eq_readItems [Source σ] (hnodup : (r.fields.map (·.name)).Nodup)
    {told : List (String × σ)} (htold : told.map (·.1) = r.fields.map (·.name)) :
    r.readEntries ⟨Value.named told, .ok ()⟩ =
      r.readItems ⟨told.map (·.2), .ok ()⟩ := by
  have hfold := r.foldlM_readEntry hnodup ⟨told.map (·.2), .ok ()⟩ [] rfl htold 0 r.blank
  have hmissing : r.missing? (r.fields.map (·.name)).reverse = none := by
    rw [missing?, Option.map_eq_none_iff, List.find?_eq_none]
    intro field hfield
    have hseen : field.name ∈ (r.fields.map (·.name)).reverse :=
      List.mem_reverse.mpr (List.mem_map_of_mem hfield)
    simp [hseen]
  rw [List.map_nil, List.reverse_nil] at hfold
  rw [readEntries, readItems, hfold]
  cases hread : r.readPlaces ⟨told.map (·.2), .ok ()⟩ r.fields (told.map (·.2)) 0 r.blank with
  | error e => rfl
  | ok read =>
      have hlength : (told.map (·.2)).length = r.fields.length := by
        simpa using congrArg List.length htold
      have hnone := r.readPlaces_exact hlength hread
      simp [hmissing, hnone]

end Schema

/-! ### Giving back what was written -/

/-- Whatever is the value up to the precision of a text is read as this. -/
def Restores {β : Type} (read : Value → Except DecodeError β) (v : Value) (x : β) : Prop :=
  ∀ w : Value, w.narrowed = v → read w = .ok x

/-- Fields read one after another from what was written take one record to the other. -/
inductive Refills {α : Type} : List (Field Value α) → List (String × Value) → α → α → Prop
  | nil {a : α} : Refills [] [] a a
  | required {β : Type} {name : String} {read : Value → Except DecodeError β} {store : β → α → α}
      {fields : List (Field Value α)} {v : Value} {written : List (String × Value)} {x : β} {a b : α} :
      Restores read v x → Refills fields written (store x a) b →
      Refills (.required name read store :: fields) ((name, v) :: written) a b
  | optional {β : Type} {name : String} {read : Value → Except DecodeError β} {store : β → α → α}
      {fields : List (Field Value α)} {v : Value} {written : List (String × Value)} {x : β} {a b : α} :
      Restores read v x → Refills fields written (store x a) b →
      Refills (.optional name read store :: fields) ((name, v) :: written) a b

namespace Refills

variable {α : Type} {fields : List (Field Value α)} {written told : List (String × Value)} {a b : α}

theorem names (h : Refills fields written a b) : written.map (·.1) = fields.map (·.name) := by
  induction h with
  | nil => rfl
  | required _ _ ih | optional _ _ ih => rw [List.map_cons, List.map_cons, ih]; rfl

theorem readPlaces (h : Refills fields written a b) (htold : Value.narrowedFields told = written)
    (r : Schema Value α) (list : Items Value) (taken : Nat) :
    r.readPlaces list fields (told.map (·.2)) taken a = .ok ([], b) := by
  induction h generalizing told taken with
  | nil =>
      obtain rfl := List.map_eq_nil_iff.mp htold
      rfl
  | required hread _ ih | optional hread _ ih =>
      obtain ⟨⟨name, w⟩, told, rfl, hfirst, hrest⟩ := List.map_eq_cons_iff.mp htold
      obtain ⟨rfl, hw⟩ := Prod.mk.inj hfirst
      rw [List.map_cons, Schema.readPlaces]
      simp [Field.required, Field.optional, hread w hw, ih hrest]

end Refills

/-- What is written of a record holds every field of it once, and they add up to the record. -/
structure Schema.Recovers {α : Type} (r : Schema Value α) (written : List (String × Value)) (a : α) :
    Prop where
  distinct : (r.fields.map (·.name)).Nodup
  refills : Refills r.fields written r.blank a

namespace Schema.Recovers

variable {α : Type} {r : Schema Value α} {written : List (String × Value)} {a : α}

theorem readEntries (h : r.Recovers written a) {told : List (String × Value)}
    (htold : Value.narrowedFields told = written) :
    r.readEntries ⟨Value.named told, .ok ()⟩ = .ok a := by
  have hnames : told.map (·.1) = r.fields.map (·.name) := by
    rw [Value.names_of_narrowed htold, h.refills.names]
  rw [r.readEntries_eq_readItems h.distinct hnames, readItems, h.refills.readPlaces htold]
  rfl

theorem restores (h : r.Recovers written a) : Restores r.read (.object written) a := by
  intro w hw
  obtain ⟨told, rfl, htold⟩ := Value.object_of_narrowed hw
  exact h.readEntries htold

end Schema.Recovers

theorem restores_single (x : Single) : Restores Source.single (encode x) x := by
  intro w hw
  obtain ⟨y, rfl, rfl⟩ := Value.real_of_narrowed hw
  rfl

theorem restores_word32 (n : UInt32) : Restores Source.word32 (.natural n.toNat) n := by
  intro w hw
  obtain rfl := Value.integer_of_narrowed hw
  have hsize : n.toNat < UInt32.size := n.toNat_lt_size
  simp [Source.word32, Source.natural, hsize]

theorem restores_list {α β : Type} {item : Value → Except DecodeError α} {written : β → Value}
    {things : List β} (result : β → α) (h : ∀ a ∈ things, Restores item (written a) (result a)) :
    Restores (Source.list item) (.list (things.map written)) (things.map result) := by
  intro w hw
  obtain ⟨told, rfl, htold⟩ := Value.list_of_narrowed hw
  refine Value.faithful.list_ok rfl htold fun a ha v s hv hs => ?_
  rw [hs]
  exact h a ha v hv

theorem restores_items {α : Type} [Encode α] [Decode α] {things : List α}
    (h : ∀ a : α, Restores decode (encode a) a) : Restores decode (encode things) things := by
  have hlist := restores_list (fun a => a) fun a (_ : a ∈ things) => h a
  rwa [List.map_id'] at hlist

theorem restores_planar (v : Planar) : Restores decode (encode v) v :=
  Schema.Recovers.restores
    ⟨by decide, .required (restores_single v.x) (.required (restores_single v.y) .nil)⟩

theorem restores_aim (a : Aim) : Restores decode (encode a) a := by
  intro w hw
  obtain rfl := Value.text_of_narrowed hw
  cases a <;> rfl

theorem restores_cubic (c : Cubic) : Restores decode (encode c) c :=
  Schema.Recovers.restores
    ⟨by decide, .required (restores_planar _) (.required (restores_planar _)
      (.required (restores_planar _) (.required (restores_planar _) .nil)))⟩

/-! ### Kinds that are named in a field -/

theorem splitTag_go {tag : String} {names : List String} {rest : List (String × Value)}
    (htag : tag ∉ rest.map (·.1)) (found : Option (Fin names.length)) :
    Source.splitTag.go tag names found (Value.named rest) = .ok (found, Value.named rest) := by
  induction rest with
  | nil => rfl
  | cons f rest ih =>
      obtain ⟨hname, hrest⟩ := not_or.mp (mt List.mem_cons.mpr htag)
      have hkey : Key.text f.1 ≠ .text tag := fun h => hname (Key.text.inj h).symm
      rw [Value.named, List.map_cons, ← Value.named, Source.splitTag.go]
      simp [hkey, Value.faithful.buffer rfl, ih hrest]

/-- A tag in front is taken off, and leaves the other entries as they are. -/
theorem splitTag_cons {tag name : String} {names : List String} {place : Fin names.length}
    (hplace : Source.known names (.text name) = .ok place) {rest : List (String × Value)}
    (htag : tag ∉ rest.map (·.1)) :
    Source.splitTag tag names (Value.named ((tag, .text name) :: rest)) =
      .ok (some place, Value.named rest) := by
  have hname : Source.name (Value.text name) = .ok (.text name) := rfl
  rw [Source.splitTag, Value.named, List.map_cons, ← Value.named, Source.splitTag.go]
  simp [hname, hplace, splitTag_go htag]

/-- A record behind the name of its shape. -/
theorem Path.restores_shape (shape : Nat) {name : String} {written : List (String × Value)} {p : Path}
    (hname : ∃ place : Fin shapes.length,
      Source.known shapes (.text name) = .ok place ∧ place.val = shape)
    (htag : "shape" ∉ written.map (·.1))
    (h : ∀ told, Value.narrowedFields told = written →
      ofEntries ⟨Value.named told, .ok ()⟩ shape = .ok p) :
    Restores decode (.object (("shape", .text name) :: written)) p := by
  intro w hw
  obtain ⟨told, rfl, htold⟩ := Value.object_of_narrowed hw
  obtain ⟨rest, rfl, hrest⟩ := Value.cons_of_narrowed (fun _ => Value.text_of_narrowed) htold
  obtain ⟨place, hplace, rfl⟩ := hname
  have hshape : Source.shape (Value.object (("shape", .text name) :: rest)) =
      .ok (.entries ⟨Value.named (("shape", .text name) :: rest), .ok ()⟩) := rfl
  have hother : "shape" ∉ rest.map (·.1) := by rwa [Value.names_of_narrowed hrest]
  have hsplit := splitTag_cons hplace hother
  have hread : Path.read (Value.object (("shape", .text name) :: rest)) = .ok p := by
    simp [Path.read, hshape, hsplit, h rest hrest]
  exact hread

theorem Polyline.recovers (p : Polyline) : Polyline.schema.Recovers p.entries p :=
  ⟨by decide, .required (restores_items restores_planar) .nil⟩

theorem Bezier.recovers (b : Bezier) : Bezier.schema.Recovers b.entries b :=
  ⟨by decide, .required (restores_items restores_cubic) .nil⟩

theorem restores_bezier (b : Bezier) : Restores decode (encode b) b := b.recovers.restores

theorem restores_path (p : Path) : Restores decode (encode p) p := by
  cases p with
  | polyline p =>
      apply Path.restores_shape 0 ⟨_, rfl, rfl⟩
      · simp [Polyline.entries]
      · intro told htold
        rw [Path.ofEntries, if_pos rfl, p.recovers.readEntries htold, map_ok]
  | bezier b =>
      apply Path.restores_shape 1 ⟨_, rfl, rfl⟩
      · simp [Bezier.entries]
      · intro told htold
        rw [Path.ofEntries, if_neg (by decide), b.recovers.readEntries htold, map_ok]

/-! ### What is written is narrow -/

open Value

theorem Single.isNarrow (x : Single) : (encode x).IsNarrow := isNarrow_single x

theorem Planar.isNarrow (v : Planar) : (encode v).IsNarrow := by
  apply isNarrow_object
  simp [Single.isNarrow]

theorem Aim.isNarrow (a : Aim) : (encode a).IsNarrow := rfl

theorem Cubic.isNarrow (c : Cubic) : (encode c).IsNarrow := by
  apply isNarrow_object
  simp [Planar.isNarrow]

theorem Bezier.isNarrow (b : Bezier) : (encode b).IsNarrow := by
  have hcurves : (encode b.curves).IsNarrow := isNarrow_list fun c _ => c.isNarrow
  apply isNarrow_object
  simpa [entries] using hcurves

theorem Path.isNarrow (p : Path) : (encode p).IsNarrow := by
  have htext : ∀ t, (text t).IsNarrow := fun _ => rfl
  cases p with
  | polyline p =>
      have hpoints : (encode p.points).IsNarrow := isNarrow_list fun v _ => v.isNarrow
      apply isNarrow_object
      simpa [Polyline.entries, htext] using hpoints
  | bezier b =>
      have hcurves : (encode b.curves).IsNarrow := isNarrow_list fun c _ => c.isNarrow
      apply isNarrow_object
      simpa [Bezier.entries, htext] using hcurves

end Choreo
