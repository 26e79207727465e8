import Choreo.Json.Printing
import Mathlib.Data.List.Basic

/-!
# Texts of one line

Numbers are written with digits, signs, points and blanks, and a JSON text escapes the line ends of
the texts in it. So neither ever breaks a line.
-/

namespace Choreo

theorem not_mem_intercalate {α : Type} {x : α} (separator : List α) {parts : List (List α)}
    (hseparator : x ∉ separator) (hparts : ∀ part ∈ parts, x ∉ part) :
    x ∉ separator.intercalate parts := by
  induction parts with
  | nil => simp
  | cons part rest ih =>
      obtain ⟨hpart, hrest⟩ := List.forall_mem_cons.mp hparts
      cases rest with
      | nil => simpa using hpart
      | cons next rest =>
          rw [List.intercalate_cons_cons, List.mem_append, List.mem_append]
          rintro ((hmem | hmem) | hmem)
          · exact hpart hmem
          · exact hseparator hmem
          · exact ih hrest hmem

theorem not_mem_toDigits {c : Char} (hc : c.isDigit = false) (n : Nat) : c ∉ Nat.toDigits 10 n := by
  intro hmem
  rw [Nat.isDigit_of_mem_toDigits (by decide) (by decide) hmem] at hc
  cases hc

namespace Layout

variable (l : Layout)

theorem newline_not_mem_decimal (n : Nat) : '\n' ∉ decimal n := not_mem_toDigits rfl n

theorem newline_not_mem_zeros (n : Nat) : '\n' ∉ zeros n := by simp [zeros]

theorem newline_not_mem_minus (negative : Bool) : '\n' ∉ minus negative := by
  cases negative <;> decide

theorem newline_not_mem_scientific {shown : List Char} (h : '\n' ∉ shown) (leading : Int) :
    '\n' ∉ l.scientific shown leading := by
  have hfirst : '\n' ∉ shown.take 1 := fun hmem => h (List.mem_of_mem_take hmem)
  have hothers : '\n' ∉ shown.drop 1 := fun hmem => h (List.mem_of_mem_drop hmem)
  simp only [scientific, List.mem_append, not_or]
  refine ⟨⟨⟨⟨hfirst, ?_⟩, by decide⟩, ?_⟩, newline_not_mem_decimal _⟩
  · split_ifs
    · simp
    · exact List.not_mem_cons_of_ne_of_not_mem (by decide) hothers
  · split_ifs <;> simp

theorem newline_not_mem_plain {shown : List Char} (h : '\n' ∉ shown) (power leading : Int) :
    '\n' ∉ l.plain shown power leading := by
  rw [plain]
  split_ifs with hpower hpoint hleading
  · simp [h, newline_not_mem_zeros]
  · simp [h, newline_not_mem_zeros]
  · simp [h, newline_not_mem_zeros]
  · have htake : '\n' ∉ shown.take (leading + 1).toNat := fun hmem => h (List.mem_of_mem_take hmem)
    have hdrop : '\n' ∉ shown.drop (leading + 1).toNat := fun hmem => h (List.mem_of_mem_drop hmem)
    simp [htake, hdrop]

theorem newline_not_mem_positive (digits : Nat) (power : Int) :
    '\n' ∉ l.positive digits power := by
  have hshown := newline_not_mem_decimal digits
  rw [positive]
  split
  · exact l.newline_not_mem_plain hshown _ _
  · split
    · exact l.newline_not_mem_plain hshown _ _
    · exact l.newline_not_mem_scientific hshown _

theorem newline_not_mem_render (hnan : '\n' ∉ l.nan.toList) (hinfinite : '\n' ∉ l.infinite.toList)
    (hnegative : '\n' ∉ l.negativeInfinite.toList) (w : Width) (x : Exact) :
    '\n' ∉ (l.render w x).toList := by
  cases x with
  | nan => exact hnan
  | infinite negative => cases negative <;> assumption
  | finite negative mantissa exponent =>
      rw [render, String.toList_ofList, List.mem_append, not_or]
      refine ⟨newline_not_mem_minus negative, ?_⟩
      split_ifs
      · decide
      · decide
      · exact l.newline_not_mem_positive _ _

theorem newline_not_mem_fixed (places : Nat) (x : Exact) : '\n' ∉ (fixed places x).toList := by
  cases x with
  | nan =>
      rw [fixed]
      decide
  | infinite negative => cases negative <;> simp [fixed, display]
  | finite negative mantissa exponent =>
      simp [fixed, newline_not_mem_minus, newline_not_mem_decimal, newline_not_mem_zeros]

end Layout

namespace Json

/-! ### The shape of an object -/

theorem toList_render_natural (n : Nat) : (render (.natural n)).toList = Nat.toDigits 10 n := by
  have hsigned : Value.signed false n = n := rfl
  rw [Value.natural, render, hsigned, Int.toString_eq_repr, Int.repr_eq_if,
    if_pos (Int.natCast_nonneg n), Int.toNat_natCast, Nat.toList_repr]

/-- A text without characters to be escaped stands between quotes as it is. -/
theorem toList_textOf (s : String) (h : s.toList.flatMap escaped = s.toList) :
    (textOf s).toList = '"' :: (s.toList ++ ['"']) := by
  simp [textOf, h]

/-- An entry of an object. -/
def fieldText (field : String × Value) : List Char :=
  (textOf field.1).toList ++ ':' :: (render field.2).toList

theorem renderEntries_named (fields : List (String × Value)) :
    (renderEntries (fields.map fun (name, v) => (.text name, v))).map String.toList =
      fields.map fieldText := by
  induction fields with
  | nil => rfl
  | cons field rest ih =>
      rw [List.map_cons, renderEntries, List.map_cons, List.map_cons, ih]
      simp [fieldText, nameOf]

theorem toList_render_object (fields : List (String × Value)) :
    (render (.object fields)).toList = '{' :: ([','].intercalate (fields.map fieldText) ++ ['}']) := by
  rw [Value.object, render, String.toList_append, String.toList_append, String.toList_intercalate,
    renderEntries_named]
  rfl

/-! ### No line ends -/

theorem newline_not_mem_escaped (c : Char) : '\n' ∉ escaped c := by
  have hhex : ∀ n : Fin 32, '\n' ∉ hexDigits n := by decide
  rw [escaped.eq_def]
  split
  iterate 7 decide
  next hnewline _ _ _ _ =>
    split
    · next hlow => simpa using hhex ⟨_, hlow⟩
    · simpa using Ne.symm hnewline

theorem newline_not_mem_textOf (s : String) : '\n' ∉ (textOf s).toList := by
  simp [textOf, newline_not_mem_escaped]

theorem newline_not_mem_nameOf (key : Key) : '\n' ∉ (nameOf key).toList := by
  cases key <;> exact newline_not_mem_textOf _

theorem newline_not_mem_toString (n : Int) : '\n' ∉ (toString n).toList := by
  rw [Int.toString_eq_repr, Int.repr_eq_if]
  split <;> simp [not_mem_toDigits]

mutual

/-- A JSON text stands on one line. -/
theorem newline_not_mem_render : (v : Value) → '\n' ∉ (render v).toList
  | .null => by decide
  | .flag b => by cases b <;> decide
  | .integer .. => newline_not_mem_toString _
  | .real _ =>
      Layout.newline_not_mem_render _ (by decide) (by decide) (by decide) _ _
  | .text s => newline_not_mem_textOf s
  | .list items => by
      have hitems := not_mem_intercalate ",".toList (by decide)
        (newline_not_mem_renderItems items)
      simpa [render, String.toList_intercalate] using hitems
  | .record entries => by
      have hentries := not_mem_intercalate ",".toList (by decide)
        (newline_not_mem_renderEntries entries)
      simpa [render, String.toList_intercalate] using hentries

theorem newline_not_mem_renderItems : (items : List Value) →
    ∀ part ∈ (renderItems items).map String.toList, '\n' ∉ part
  | [] => by simp [renderItems]
  | v :: rest => by
      rw [renderItems, List.map_cons, List.forall_mem_cons]
      exact ⟨newline_not_mem_render v, newline_not_mem_renderItems rest⟩

theorem newline_not_mem_renderEntries : (entries : List (Key × Value)) →
    ∀ part ∈ (renderEntries entries).map String.toList, '\n' ∉ part
  | [] => by simp [renderEntries]
  | (key, v) :: rest => by
      rw [renderEntries, List.map_cons, List.forall_mem_cons]
      refine ⟨?_, newline_not_mem_renderEntries rest⟩
      simp [newline_not_mem_nameOf key, newline_not_mem_render v]

end

end Json

end Choreo
