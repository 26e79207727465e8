import Choreo.Data.Source
import Choreo.Proofs.Number.Exactness

/-!
# What a text keeps of a value

A quantity is written with the digits that tell its single from every other, and what comes back is
the double that these digits name. So a value that has been through a text is the same up to the
singles of its reals, and narrowing all of them gives back what was written.
-/

namespace Choreo.Value

/-! ### Equality -/

mutual

def same : Value → Value → Bool
  | null, null => true
  | flag a, flag b => a == b
  | integer s a, integer t b => s == t && a == b
  | real x, real y => x = y
  | text a, text b => a == b
  | list as, list bs => itemsSame as bs
  | record as, record bs => entriesSame as bs
  | _, _ => false

def itemsSame : List Value → List Value → Bool
  | [], [] => true
  | a :: as, b :: bs => a.same b && itemsSame as bs
  | _, _ => false

def entriesSame : List (Key × Value) → List (Key × Value) → Bool
  | [], [] => true
  | (j, a) :: as, (k, b) :: bs => j == k && a.same b && entriesSame as bs
  | _, _ => false

end

mutual

theorem same_iff : (v w : Value) → (v.same w = true ↔ v = w)
  | null, w | flag _, w | integer .., w | real _, w | text _, w => by cases w <;> simp [same]
  | list items, w => by
      cases w with
      | list _ => simp [same, itemsSame_iff items]
      | _ => simp [same]
  | record entries, w => by
      cases w with
      | record _ => simp [same, entriesSame_iff entries]
      | _ => simp [same]

theorem itemsSame_iff : (as bs : List Value) → (itemsSame as bs = true ↔ as = bs)
  | [], bs => by cases bs <;> simp [itemsSame]
  | a :: as, bs => by cases bs <;> simp [itemsSame, same_iff a, itemsSame_iff as]

theorem entriesSame_iff : (as bs : List (Key × Value)) → (entriesSame as bs = true ↔ as = bs)
  | [], bs => by cases bs <;> simp [entriesSame]
  | (j, a) :: as, [] => by simp [entriesSame]
  | (j, a) :: as, (k, b) :: bs => by
      simp [entriesSame, same_iff a, entriesSame_iff as]

end

instance : DecidableEq Value := fun v w => decidable_of_iff _ (same_iff v w)

/-! ### Narrowing -/

mutual

/-- The value with every real cut down to a single. -/
def narrowed : Value → Value
  | null => null
  | flag b => flag b
  | integer negative n => integer negative n
  | real x => single (Double.narrow x)
  | text s => text s
  | list items => list (narrowedItems items)
  | record entries => record (narrowedEntries entries)

def narrowedItems : List Value → List Value
  | [] => []
  | v :: rest => v.narrowed :: narrowedItems rest

def narrowedEntries : List (Key × Value) → List (Key × Value)
  | [] => []
  | (key, v) :: rest => (key, v.narrowed) :: narrowedEntries rest

end

mutual

/-- The singles that a value is made of. -/
def singles : Value → List Single
  | null | flag _ | integer .. | text _ => []
  | real x => [Double.narrow x]
  | list items => singlesOfItems items
  | record entries => singlesOfEntries entries

def singlesOfItems : List Value → List Single
  | [] => []
  | v :: rest => v.singles ++ singlesOfItems rest

def singlesOfEntries : List (Key × Value) → List Single
  | [] => []
  | (_, v) :: rest => v.singles ++ singlesOfEntries rest

end

theorem narrowedItems_eq_map (items : List Value) : narrowedItems items = items.map narrowed := by
  induction items with
  | nil => rfl
  | cons v rest ih => rw [narrowedItems, ih, List.map_cons]

theorem narrowedEntries_eq_map (entries : List (Key × Value)) :
    narrowedEntries entries = entries.map fun e => (e.1, e.2.narrowed) := by
  induction entries with
  | nil => rfl
  | cons e rest ih => rw [narrowedEntries, ih, List.map_cons]

/-! ### What a narrowed value was -/

variable {v : Value}

theorem null_of_narrowed (h : v.narrowed = null) : v = null := by
  cases v with
  | null => rfl
  | _ => cases h

theorem flag_of_narrowed {b : Bool} (h : v.narrowed = flag b) : v = flag b := by
  cases v with
  | flag _ => exact h
  | _ => cases h

theorem integer_of_narrowed {negative : Bool} {n : Nat} (h : v.narrowed = integer negative n) :
    v = integer negative n := by
  cases v with
  | integer _ _ => exact h
  | _ => cases h

theorem text_of_narrowed {s : String} (h : v.narrowed = text s) : v = text s := by
  cases v with
  | text _ => exact h
  | _ => cases h

/-- A single can be told from its double, so nothing but a double next to it is narrowed to it. -/
theorem real_of_narrowed {x : Single} (h : v.narrowed = single x) :
    ∃ y, v = real y ∧ Double.narrow y = x := by
  cases v with
  | real y =>
      have hwiden : (Double.narrow y).widen = x.widen := Value.real.inj h
      refine ⟨y, rfl, ?_⟩
      rw [← Single.narrow_widen (Double.narrow y), hwiden, Single.narrow_widen]
  | _ => cases h

theorem list_of_narrowed {items : List Value} (h : v.narrowed = list items) :
    ∃ told, v = list told ∧ told.map narrowed = items := by
  cases v with
  | list told => exact ⟨told, rfl, by rw [← narrowedItems_eq_map]; exact Value.list.inj h⟩
  | _ => cases h

/-- Contents under names, as the entries of a map. -/
def named {σ : Type} (fields : List (String × σ)) : List (Key × σ) :=
  fields.map fun f => (.text f.1, f.2)

theorem object_eq (fields : List (String × Value)) : object fields = record (named fields) := rfl

/-- Names and what stands under them, each cut down. -/
def narrowedFields (fields : List (String × Value)) : List (String × Value) :=
  fields.map fun f => (f.1, f.2.narrowed)

theorem names_of_narrowed {told fields : List (String × Value)} (h : narrowedFields told = fields) :
    told.map (·.1) = fields.map (·.1) := by
  rw [← h, narrowedFields, List.map_map]
  rfl

/-- A field in front of others, if nothing else is narrowed to what it holds. -/
theorem cons_of_narrowed {told fields : List (String × Value)} {name : String}
    (hv : ∀ w : Value, w.narrowed = v → w = v)
    (h : narrowedFields told = (name, v) :: fields) :
    ∃ rest, told = (name, v) :: rest ∧ narrowedFields rest = fields := by
  obtain ⟨⟨_, w⟩, rest, rfl, hfirst, hrest⟩ := List.map_eq_cons_iff.mp h
  obtain ⟨rfl, hw⟩ := Prod.mk.inj hfirst
  obtain rfl : w = v := hv w hw
  exact ⟨rest, rfl, hrest⟩

theorem named_of_narrowed {entries : List (Key × Value)} {fields : List (String × Value)}
    (h : narrowedEntries entries = named fields) :
    ∃ told, entries = named told ∧ narrowedFields told = fields := by
  rw [narrowedEntries_eq_map] at h
  induction fields generalizing entries with
  | nil => exact ⟨[], List.map_eq_nil_iff.mp h, rfl⟩
  | cons f fields ih =>
      obtain ⟨⟨key, w⟩, entries, rfl, hfirst, hrest⟩ := List.map_eq_cons_iff.mp h
      obtain ⟨rfl, hw⟩ := Prod.mk.inj hfirst
      obtain ⟨told, rfl, rfl⟩ := ih hrest
      exact ⟨(f.1, w) :: told, rfl, by rw [narrowedFields, List.map_cons, hw]; rfl⟩

theorem object_of_narrowed {fields : List (String × Value)} (h : v.narrowed = object fields) :
    ∃ told, v = object told ∧ narrowedFields told = fields := by
  cases v with
  | record entries =>
      obtain ⟨told, rfl, htold⟩ := named_of_narrowed (Value.record.inj h)
      exact ⟨told, rfl, htold⟩
  | _ => cases h

/-! ### Values that are narrow already -/

/-- Nothing of the value is lost when its reals are cut down to singles. -/
def IsNarrow (v : Value) : Prop := v.narrowed = v

theorem isNarrow_single (x : Single) : (single x).IsNarrow := by
  rw [IsNarrow, single, narrowed, Single.narrow_widen]
  rfl

theorem isNarrow_list {α : Type} {written : α → Value} {things : List α}
    (h : ∀ a ∈ things, (written a).IsNarrow) : (list (things.map written)).IsNarrow := by
  rw [IsNarrow, narrowed, narrowedItems_eq_map, List.map_map]
  exact congrArg list (List.map_congr_left h)

theorem isNarrow_object {fields : List (String × Value)} (h : ∀ f ∈ fields, f.2.IsNarrow) :
    (object fields).IsNarrow := by
  rw [IsNarrow, object_eq, narrowed, narrowedEntries_eq_map, named, List.map_map]
  refine congrArg record (List.map_congr_left fun f hf => ?_)
  exact congrArg (Key.text f.1, ·) (h f hf)

/-! ### Depth -/

mutual

theorem depth_narrowed : (v : Value) → v.narrowed.depth = v.depth
  | null | flag _ | integer .. | real _ | text _ => rfl
  | list items => by rw [narrowed, depth, depth, depthOfItems_narrowed items]
  | record entries => by rw [narrowed, depth, depth, depthOfEntries_narrowed entries]

theorem depthOfItems_narrowed : (items : List Value) →
    depthOfItems (narrowedItems items) = depthOfItems items
  | [] => rfl
  | v :: rest => by
      rw [narrowedItems, depthOfItems, depthOfItems, depth_narrowed v, depthOfItems_narrowed rest]

theorem depthOfEntries_narrowed : (entries : List (Key × Value)) →
    depthOfEntries (narrowedEntries entries) = depthOfEntries entries
  | [] => rfl
  | (key, v) :: rest => by
      rw [narrowedEntries, depthOfEntries, depthOfEntries, depth_narrowed v,
        depthOfEntries_narrowed rest]

end

theorem depth_lt_list {items : List Value} (hv : v ∈ items) : v.depth < (list items).depth := by
  rw [depth, Nat.lt_succ_iff]
  induction items with
  | nil => exact absurd hv List.not_mem_nil
  | cons w rest ih =>
      rw [depthOfItems]
      obtain rfl | hrest := List.mem_cons.mp hv
      · exact le_max_left _ _
      · exact le_max_of_le_right (ih hrest)

theorem depth_lt_record {entries : List (Key × Value)} {e : Key × Value} (he : e ∈ entries) :
    e.2.depth < (record entries).depth := by
  rw [depth, Nat.lt_succ_iff]
  induction entries with
  | nil => exact absurd he List.not_mem_nil
  | cons f rest ih =>
      rw [depthOfEntries]
      obtain rfl | hrest := List.mem_cons.mp he
      · exact le_max_left _ _
      · exact le_max_of_le_right (ih hrest)

theorem depth_lt_object {fields : List (String × Value)} {name : String} (hv : (name, v) ∈ fields) :
    v.depth < (object fields).depth := by
  have hmem : (Key.text name, v) ∈ named fields :=
    List.mem_map_of_mem (f := fun f => (Key.text f.1, f.2)) hv
  exact depth_lt_record hmem

end Choreo.Value
