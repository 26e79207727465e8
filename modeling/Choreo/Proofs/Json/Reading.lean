import Choreo.Json.Reading
import Choreo.Proofs.Data.Buffering

/-!
# JSON as a faithful source

A JSON tree that can be kept as a plain value is one whose lists and maps are closed and whose leaves
can all be read, so reading it at once gives the same. There is no text for a real that is not finite,
and null stands in its place.
-/

namespace Choreo.Json

@[simp]
theorem toValue_list_eq_ok {items : List Json} {closed : Bool} {v : Value} :
    (list items closed).toValue = .ok v ↔
      closed = true ∧ ∃ values, itemsToValues items = .ok values ∧ .list values = v := by
  rw [toValue]
  cases itemsToValues items <;> cases closed <;> simp [closing]

@[simp]
theorem toValue_record_eq_ok {entries : List (Option String × Json)} {closed : Bool} {v : Value} :
    (record entries closed).toValue = .ok v ↔
      closed = true ∧ ∃ values, entriesToValues entries = .ok values ∧ .record values = v := by
  rw [toValue]
  cases entriesToValues entries <;> cases closed <;> simp [closing]

theorem forall₂_of_itemsToValues {items : List Json} {values : List Value}
    (h : itemsToValues items = .ok values) :
    List.Forall₂ (fun j v => j.toValue = .ok v) items values := by
  induction items generalizing values with
  | nil =>
      obtain rfl := Except.ok.inj h
      exact .nil
  | cons j rest ih =>
      rw [itemsToValues] at h
      obtain ⟨v, hv, h⟩ := bind_eq_ok h
      obtain ⟨more, hmore, h⟩ := bind_eq_ok h
      obtain rfl := Except.ok.inj h
      exact .cons hv (ih hmore)

theorem forall₂_of_entriesToValues {entries : List (Option String × Json)}
    {fields : List (String × Value)} (h : entriesToValues entries = .ok (Value.named fields)) :
    List.Forall₂ (fun e f => e.1 = some f.1 ∧ e.2.toValue = .ok f.2) entries fields := by
  induction entries generalizing fields with
  | nil =>
      obtain rfl := List.map_eq_nil_iff.mp (Except.ok.inj h).symm
      exact .nil
  | cons e rest ih =>
      obtain ⟨_ | name, j⟩ := e
      · cases h
      rw [entriesToValues] at h
      obtain ⟨v, hv, h⟩ := bind_eq_ok h
      obtain ⟨more, hmore, h⟩ := bind_eq_ok h
      obtain ⟨⟨_, _⟩, fields, rfl, hfirst, rfl⟩ := List.map_eq_cons_iff.mp (Except.ok.inj h).symm
      obtain ⟨hname, rfl⟩ := Prod.mk.inj hfirst
      obtain rfl := Key.text.inj hname
      exact .cons ⟨rfl, hv⟩ (ih hmore)

/-! ### What a plain value was -/

theorem eq_text {j : Json} {t : String} (h : j.toValue = .ok (.text t)) : j = text t := by
  cases j with
  | text s => rw [Value.text.inj (Except.ok.inj h)]
  | list items closed | record entries closed => simp at h
  | _ => cases h

theorem eq_flag {j : Json} {b : Bool} (h : j.toValue = .ok (.flag b)) : j = flag b := by
  cases j with
  | flag c => rw [Value.flag.inj (Except.ok.inj h)]
  | list items closed | record entries closed => simp at h
  | _ => cases h

theorem eq_list {j : Json} {values : List Value} (h : j.toValue = .ok (.list values)) :
    ∃ items, j = list items true ∧ List.Forall₂ (fun j v => j.toValue = .ok v) items values := by
  cases j with
  | list items closed =>
      obtain ⟨rfl, _, hitems, hlist⟩ := toValue_list_eq_ok.mp h
      obtain rfl := Value.list.inj hlist
      exact ⟨items, rfl, forall₂_of_itemsToValues hitems⟩
  | record entries closed => simp at h
  | _ => cases h

theorem eq_record {j : Json} {fields : List (String × Value)}
    (h : j.toValue = .ok (.object fields)) :
    ∃ entries, j = record entries true ∧
      List.Forall₂ (fun e f => e.1 = some f.1 ∧ e.2.toValue = .ok f.2) entries fields := by
  cases j with
  | record entries closed =>
      obtain ⟨rfl, _, hentries, hrecord⟩ := toValue_record_eq_ok.mp h
      obtain rfl := Value.record.inj hrecord
      exact ⟨entries, rfl, forall₂_of_entriesToValues hentries⟩
  | list items closed => simp [Value.object] at h
  | _ => cases h

theorem faithful : Source.Faithful fun (j : Json) v => j.toValue = .ok v where
  buffer h := h
  text h := by
    obtain rfl := eq_text h
    exact ⟨rfl, rfl⟩
  flag h := by
    obtain rfl := eq_flag h
    rfl
  list h := by
    obtain ⟨items, rfl, hitems⟩ := eq_list h
    exact ⟨items, rfl, hitems⟩
  object h := by
    obtain ⟨entries, rfl, hentries⟩ := eq_record h
    refine ⟨entries.map fun e => (key e.1, e.2), rfl, ?_⟩
    rw [List.forall₂_map_left_iff]
    refine hentries.imp ?_
    rintro e f ⟨hname, hj⟩
    exact ⟨congrArg key hname, hj⟩
  choice h := by
    obtain ⟨entries, rfl, hentries⟩ := eq_record h
    obtain ⟨⟨_, content⟩, rest, ⟨rfl, hcontent⟩, hrest, rfl⟩ :=
      List.forall₂_cons_right_iff.mp hentries
    obtain rfl := List.forall₂_nil_right_iff.mp hrest
    exact ⟨content, rfl, hcontent⟩

/-! ### What a tree holds -/

/-- The value that a tree holds, up to the precision of a text. -/
def content? (j : Json) : Option Value := j.toValue.toOption.map Value.narrowed

theorem toValue_of_content {j : Json} {v : Value} (h : j.content? = some v) :
    ∃ w, j.toValue = .ok w ∧ w.narrowed = v := by
  rw [content?] at h
  cases hvalue : j.toValue with
  | error e => simp [hvalue, Except.toOption] at h
  | ok w => exact ⟨w, rfl, by simpa [hvalue, Except.toOption] using h⟩

mutual

/-- What is left of a value when it is written as a text. -/
def written : Value → Value
  | .null => .null
  | .flag b => .flag b
  | .integer negative n => .integer negative n
  | .real x => if (Double.narrow x).isFinite then .real x else .null
  | .text s => .text s
  | .list items => .list (itemsWritten items)
  | .record entries => .record (entriesWritten entries)

def itemsWritten : List Value → List Value
  | [] => []
  | v :: rest => written v :: itemsWritten rest

def entriesWritten : List (Key × Value) → List (Key × Value)
  | [] => []
  | (key, v) :: rest => (key, written v) :: entriesWritten rest

end

mutual

theorem written_of_finite : (v : Value) → (∀ x ∈ v.singles, x.isFinite = true) → written v = v
  | .null, _ | .flag _, _ | .integer .., _ | .text _, _ => rfl
  | .real x, h => by rw [written, if_pos (h _ (List.mem_singleton_self _))]
  | .list items, h => by rw [written, itemsWritten_of_finite items h]
  | .record entries, h => by rw [written, entriesWritten_of_finite entries h]

theorem itemsWritten_of_finite : (items : List Value) →
    (∀ x ∈ Value.singlesOfItems items, x.isFinite = true) → itemsWritten items = items
  | [], _ => rfl
  | v :: rest, h => by
      obtain ⟨hv, hrest⟩ := List.forall_mem_append.mp h
      rw [itemsWritten, written_of_finite v hv, itemsWritten_of_finite rest hrest]

theorem entriesWritten_of_finite : (entries : List (Key × Value)) →
    (∀ x ∈ Value.singlesOfEntries entries, x.isFinite = true) → entriesWritten entries = entries
  | [], _ => rfl
  | (key, v) :: rest, h => by
      obtain ⟨hv, hrest⟩ := List.forall_mem_append.mp h
      rw [entriesWritten, written_of_finite v hv, entriesWritten_of_finite rest hrest]

end

end Choreo.Json
