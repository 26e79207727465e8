import Choreo.Proofs.Data.Concurrence
import Mathlib.Logic.Relation

/-!
# The order of keys in a value

Two values that differ in the order of keys alone are both lists or both maps, so no reading of a
single datum can tell them apart. What is read of a list or of an alternative is told apart no better
than its parts are. Of a map, what stands under one name is all that matters to that name.
-/

namespace Choreo

namespace Value

/-- The keys of one of the maps in a value take another order. -/
inductive Reordered : Value → Value → Prop
  | entries {before after : List (Key × Value)} (h : before.Perm after) :
      Reordered (record before) (record after)
  | item (left right : List Value) {v w : Value} (h : Reordered v w) :
      Reordered (list (left ++ v :: right)) (list (left ++ w :: right))
  | entry (left : List (Key × Value)) (key : Key) (right : List (Key × Value)) {v w : Value}
      (h : Reordered v w) :
      Reordered (record (left ++ (key, v) :: right)) (record (left ++ (key, w) :: right))

/-- Both are lists, or both are maps. -/
inductive Kindred : Value → Value → Prop
  | lists (items items' : List Value) : Kindred (list items) (list items')
  | records (entries entries' : List (Key × Value)) : Kindred (record entries) (record entries')

variable {v w : Value}

theorem Reordered.kindred (h : v.Reordered w) : v.Kindred w := by
  cases h with
  | entries | entry => exact .records _ _
  | item => exact .lists _ _

namespace Kindred

variable (h : v.Kindred w)
include h

theorem single : Concur (Source.single v) (Source.single w) := by
  cases h <;> exact .error _ _

theorem natural (bound : Nat) (name : String) :
    Concur (Source.natural bound name v) (Source.natural bound name w) := by
  cases h <;> exact .error _ _

theorem flag : Concur (Source.flag v) (Source.flag w) := by
  cases h <;> exact .error _ _

theorem text : Concur (Source.text v) (Source.text w) := by
  cases h <;> exact .error _ _

theorem name : Concur (Source.name v) (Source.name w) := by
  cases h <;> exact .error _ _

theorem optional {α : Type} {content : Value → Except DecodeError α}
    (hcontent : Concur (content v) (content w)) :
    Concur (Source.optional content v) (Source.optional content w) := by
  cases h <;> exact hcontent.map some

end Kindred

/-! ### Readings that do not see the order of keys -/

/-- The reading does not depend on the order of keys. -/
def Blind {α : Type} (read : Value → Except DecodeError α) : Prop :=
  ∀ ⦃v w : Value⦄, v.Reordered w → Concur (read v) (read w)

variable {α β : Type} {read : Value → Except DecodeError α}

theorem Blind.map (h : Blind read) (f : α → β) : Blind fun v => f <$> read v :=
  fun _ _ hvw => (h hvw).map f

theorem blind_single : Blind (Source.single : Value → _) := fun _ _ h => h.kindred.single

theorem blind_word32 : Blind (Source.word32 : Value → _) :=
  fun _ _ h => (h.kindred.natural _ _).map _

theorem Blind.optional (h : Blind read) : Blind (Source.optional read) :=
  fun _ _ hvw => hvw.kindred.optional (h hvw)

theorem concur_list_replace (h : Concur (read v) (read w)) (left right : List Value) :
    Concur (Source.list read (list (left ++ v :: right)))
      (Source.list read (list (left ++ w :: right))) :=
  (Concur.mapM_replace h left right).bind fun _ => .refl _

theorem Blind.list (h : Blind read) : Blind (Source.list read) := by
  intro v w hvw
  cases hvw with
  | entries | entry => exact .error _ _
  | item left right hvw => exact concur_list_replace (h hvw) left right

/-- Two alternatives of one name, whose contents differ in the order of keys at most. -/
def SameChoice (c d : Choice Value) : Prop :=
  c.name = d.name ∧ c.closing = d.closing ∧
    ∃ v w, c.content = some v ∧ d.content = some w ∧ Relation.ReflGen Reordered v w

/-- A map with another number of entries than one is no alternative. -/
theorem choice_of_length_ne {entries : List (Key × Value)} (h : entries.length ≠ 1) :
    ∃ e, Source.choice (record entries) = .error e := by
  match entries with
  | [] => exact ⟨_, rfl⟩
  | [_] => exact absurd rfl h
  | _ :: _ :: _ => exact ⟨_, rfl⟩

theorem Reordered.choice (h : v.Reordered w) :
    ConcurUpTo SameChoice (Source.choice v) (Source.choice w) := by
  have hno {before after : List (Key × Value)} (hlength : before.length = after.length)
      (hbefore : before.length ≠ 1) :
      ConcurUpTo SameChoice (Source.choice (record before)) (Source.choice (record after)) := by
    obtain ⟨e, he⟩ := choice_of_length_ne hbefore
    obtain ⟨e', he'⟩ := choice_of_length_ne (hlength ▸ hbefore)
    rw [he, he']
    exact .error e e'
  cases h with
  | item => exact .error _ _
  | @entries before after hperm =>
      by_cases hlength : before.length = 1
      · obtain ⟨e, rfl⟩ := List.length_eq_one_iff.mp hlength
        obtain rfl := List.perm_singleton.mp hperm.symm
        exact .ok ⟨rfl, rfl, _, _, rfl, rfl, .refl⟩
      · exact hno hperm.length_eq hlength
  | @entry left key right v w hvw =>
      by_cases hlength : (left ++ (key, v) :: right).length = 1
      · obtain ⟨rfl, rfl⟩ : left = [] ∧ right = [] := by
          simp only [List.length_append, List.length_cons] at hlength
          exact ⟨List.length_eq_zero_iff.mp (by omega), List.length_eq_zero_iff.mp (by omega)⟩
        exact .ok ⟨rfl, rfl, _, _, rfl, rfl, .single hvw⟩
      · exact hno (by simp) hlength

theorem Blind.of_reflGen (h : Blind read) (hvw : Relation.ReflGen Reordered v w) :
    Concur (read v) (read w) := by
  cases hvw with
  | refl => exact .refl _
  | single hvw => exact h hvw

theorem blind_unit : Blind (Source.unit : Value → _) := by
  intro v w h
  cases h with
  | item => exact .error _ _
  | @entries before after hperm =>
      cases before with
      | nil => rw [List.nil_perm.mp hperm]; exact .refl _
      | cons e before =>
          obtain ⟨e', after, rfl⟩ := List.exists_cons_of_length_eq_add_one hperm.length_eq.symm
          exact .error _ _
  | entry left key right h => cases left <;> exact .error _ _

theorem blind_oneOf (nameOf : α → String) (all : List α) :
    Blind (Source.oneOf nameOf all : Value → _) := by
  intro v w h
  refine h.choice.bind ?_
  rintro ⟨name, _, closing⟩ ⟨_, _, _⟩ ⟨rfl, rfl, v, w, rfl, rfl, hvw⟩
  exact (Concur.refl _).bind fun _ => (blind_unit.of_reflGen hvw).bind fun _ => .refl _

end Value

/-! ### What stands under a name -/

/-- Every key of a map can be read. -/
def Readable (entries : List (Key × Value)) : Prop := ∀ e ∈ entries, e.1 ≠ .unreadable

/-- The entries under other names. -/
def without (names : List String) (entries : List (Key × Value)) : List (Key × Value) :=
  entries.filter fun e => ∀ name ∈ names, e.1 ≠ .text name

/-- What stands under a name, entry by entry. -/
def under (name : String) (entries : List (Key × Value)) : List Value :=
  (entries.filter (·.1 = .text name)).map (·.2)

/-- At most one value is there, and if it is there this is read of it. -/
inductive Sole {α : Type} (read : Value → Except DecodeError α) : List Value → Option α → Prop
  | absent : Sole read [] none
  | present {v : Value} {a : α} (h : read v = .ok a) : Sole read [v] (some a)

namespace Sole

variable {α : Type} {read : Value → Except DecodeError α} {vs ws : List Value} {a : Option α}

theorem nil_iff : Sole read [] a ↔ a = none := by
  constructor
  · rintro ⟨⟩
    rfl
  · rintro rfl
    exact .absent

theorem cons_iff {v : Value} :
    Sole read (v :: vs) a ↔ vs = [] ∧ ∃ b, read v = .ok b ∧ a = some b := by
  constructor
  · rintro (_ | h)
    exact ⟨rfl, _, h, rfl⟩
  · rintro ⟨rfl, b, h, rfl⟩
    exact .present h

theorem none_iff : Sole read vs none ↔ vs = [] := by
  constructor
  · rintro ⟨⟩
    rfl
  · rintro rfl
    exact .absent

theorem exists_mem {b : α} (h : Sole read vs (some b)) : ∃ v ∈ vs, read v = .ok b := by
  cases h with
  | present h => exact ⟨_, List.mem_singleton_self _, h⟩

theorem concat_iff {v : Value} :
    Sole read (vs ++ [v]) a ↔ vs = [] ∧ ∃ b, read v = .ok b ∧ a = some b := by
  cases vs with
  | nil => simp [cons_iff]
  | cons u vs => simp [cons_iff]

theorem perm (hperm : vs.Perm ws) : Sole read vs a ↔ Sole read ws a := by
  have hforth {vs ws : List Value} (hperm : vs.Perm ws) (h : Sole read vs a) : Sole read ws a := by
    cases h with
    | absent => rw [List.nil_perm.mp hperm]; exact .absent
    | present h => rw [List.perm_singleton.mp hperm.symm]; exact .present h
  exact ⟨hforth hperm, hforth hperm.symm⟩

theorem replace {v w : Value} (hread : Concur (read v) (read w)) (left right : List Value) :
    Sole read (left ++ v :: right) a ↔ Sole read (left ++ w :: right) a := by
  cases left with
  | nil => simp only [List.nil_append, cons_iff, Concur.iff.mp hread]
  | cons u left => simp [cons_iff]

end Sole

section Entries

variable {name : String} {names : List String} {entries entries' left right : List (Key × Value)}
  {key : Key} {v w : Value}

theorem readable_cons : Readable ((key, v) :: entries) ↔ key ≠ .unreadable ∧ Readable entries :=
  List.forall_mem_cons

theorem readable_concat :
    Readable (entries ++ [(key, v)]) ↔ Readable entries ∧ key ≠ .unreadable := by
  simp [Readable, or_imp, forall_and]

theorem Readable.perm (hperm : entries.Perm entries') : Readable entries ↔ Readable entries' := by
  simp only [Readable, hperm.mem_iff]

@[simp]
theorem under_nil : under name [] = [] := rfl

@[simp]
theorem without_nil : without names [] = [] := rfl

theorem under_perm (h : entries.Perm entries') : (under name entries).Perm (under name entries') :=
  (h.filter _).map _

theorem without_perm (h : entries.Perm entries') :
    (without names entries).Perm (without names entries') := h.filter _

theorem under_append : under name (left ++ right) = under name left ++ under name right := by
  simp [under]

theorem without_append :
    without names (left ++ right) = without names left ++ without names right := by
  simp [without]

theorem under_cons_self : under name ((.text name, v) :: entries) = v :: under name entries := by
  simp [under]

theorem under_cons_of_ne (h : key ≠ .text name) :
    under name ((key, v) :: entries) = under name entries := by
  rw [under, List.filter_cons_of_neg (by simpa using h), under]

theorem without_cons_of_mem (h : name ∈ names) :
    without names ((.text name, v) :: entries) = without names entries :=
  List.filter_cons_of_neg (by simp [h])

theorem without_cons_of_ne (h : ∀ name ∈ names, key ≠ .text name) :
    without names ((key, v) :: entries) = (key, v) :: without names entries :=
  List.filter_cons_of_pos (by simpa using h)

theorem without_without (names names' : List String) (entries : List (Key × Value)) :
    without names' (without names entries) = without (names ++ names') entries := by
  rw [without, without, without, List.filter_filter]
  refine List.filter_congr fun e _ => ?_
  simp only [List.forall_mem_append, Bool.decide_and, Bool.and_comm]

theorem under_without (h : name ∉ names) :
    under name (without names entries) = under name entries := by
  rw [under, under, without, List.filter_filter]
  refine congrArg _ (List.filter_congr fun e _ => ?_)
  by_cases hkey : e.1 = .text name
  · have hother : ∀ other ∈ names, name ≠ other := fun other hother heq => h (heq ▸ hother)
    simpa [hkey] using hother
  · simp [hkey]

theorem Readable.replace :
    Readable (left ++ (key, v) :: right) ↔ Readable (left ++ (key, w) :: right) := by
  simp [Readable, or_imp, forall_and]

theorem Sole.replace_entry {α : Type} {read : Value → Except DecodeError α} {a : Option α}
    (hread : Concur (read v) (read w)) :
    Sole read (under name (left ++ (key, v) :: right)) a ↔
      Sole read (under name (left ++ (key, w) :: right)) a := by
  rw [under_append, under_append]
  by_cases hkey : key = .text name
  · subst hkey
    rw [under_cons_self, under_cons_self]
    exact replace hread _ _
  · rw [under_cons_of_ne hkey, under_cons_of_ne hkey]

/-- What is read of other entries is read alike, if it is so with any entries around. -/
theorem concur_without (names : List String) {α : Type}
    (read : List (Key × Value) → Except DecodeError α)
    (h : ∀ left right, Concur (read (left ++ (key, v) :: right)) (read (left ++ (key, w) :: right))) :
    Concur (read (without names (left ++ (key, v) :: right)))
      (read (without names (left ++ (key, w) :: right))) := by
  rw [without_append, without_append]
  by_cases hkey : ∃ name ∈ names, key = .text name
  · obtain ⟨name, hname, rfl⟩ := hkey
    rw [without_cons_of_mem hname, without_cons_of_mem hname]
    exact Concur.refl _
  · have hother : ∀ name ∈ names, key ≠ .text name := fun name hname heq => hkey ⟨name, hname, heq⟩
    rw [without_cons_of_ne hother, without_cons_of_ne hother]
    exact h _ _

end Entries

end Choreo
