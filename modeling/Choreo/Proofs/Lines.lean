import Choreo.Command.Outcome
import Choreo.Proofs.Json.Lines
import Mathlib.Data.List.Infix

/-!
# What a line of output tells

In text as in JSON, a line of output tells by itself whether it is of a record or of an event, and of
which tick it is. So the lines of a run can be taken apart without knowing the run: only records name
a position, and the tick is the first number of a line.
-/

namespace Choreo

/-- The first number in a line: the tick that it tells of. -/
def lineTick (line : String) : Nat :=
  Nat.ofDigitChars 10 ((line.toList.dropWhile (!·.isDigit)).takeWhile (·.isDigit)) 0

/-- Whether a line tells of a record: no other names a position. -/
def namesPosition (line : String) : Bool := decide (['p', 'o', 's'] <:+: line.toList)

section Infix

variable {α : Type} {x : α} {word front back : List α}

/-- A word does not begin where its first letter does not occur. -/
theorem infix_of_not_mem_front (hx : x ∉ front) (h : x :: word <:+: front ++ back) :
    x :: word <:+: back := by
  rcases List.infix_append_iff.mp h with h | h | ⟨start, rest, hword, hstart, hrest⟩
  · exact absurd (h.subset (List.mem_cons_self ..)) hx
  · exact h
  · cases start with
    | nil =>
        rw [List.nil_append] at hword
        rw [hword]
        exact hrest.isInfix
    | cons y start =>
        obtain ⟨rfl, _⟩ := List.cons.inj hword
        exact absurd (hstart.subset (List.mem_cons_self ..)) hx

/-- A word does not end where its last letter does not occur. -/
theorem infix_of_not_mem_back (hx : x ∉ back) (h : word ++ [x] <:+: front ++ back) :
    word ++ [x] <:+: front := by
  have hreverse := List.reverse_infix.mpr h
  rw [List.reverse_append, List.reverse_append, List.reverse_singleton, List.singleton_append]
    at hreverse
  have hfront := infix_of_not_mem_front (mt List.mem_reverse.mp hx) hreverse
  rwa [← List.reverse_infix, List.reverse_append, List.reverse_singleton, List.singleton_append]

theorem prefix_intercalate (separator part : List α) (parts : List (List α)) :
    part <+: separator.intercalate (part :: parts) := by
  cases parts <;> simp [List.intercalate_cons_cons]

end Infix

/-! ### The head of a line -/

/-- A line begins with a tick, and goes on as told behind a mark: nothing before the tick is a digit,
or could begin the word for a position. -/
def Opens (line : String) (tick : UInt64) (rest : List Char) : Prop :=
  ∃ lead mark, (mark :: lead).any (·.isDigit) = false ∧ 'p' ∉ mark :: lead ∧
    line.toList = lead ++ (Nat.toDigits 10 tick.toNat ++ mark :: rest)

namespace Opens

variable {line : String} {tick : UInt64} {rest : List Char}

theorem lineTick_eq (h : Opens line tick rest) : lineTick line = tick.toNat := by
  obtain ⟨lead, mark, hlead, _, hline⟩ := h
  obtain ⟨hmark, hlead⟩ : mark.isDigit = false ∧ ∀ c ∈ lead, c.isDigit = false := by
    simpa using hlead
  have hdigits : ∀ c ∈ Nat.toDigits 10 tick.toNat, c.isDigit = true :=
    fun c hc => Nat.isDigit_of_mem_toDigits (by decide) (by decide) hc
  have hdrop : line.toList.dropWhile (!·.isDigit) =
      Nat.toDigits 10 tick.toNat ++ mark :: rest := by
    rw [hline, List.dropWhile_append_of_pos fun c hc => by simp [hlead c hc]]
    have hne : Nat.toDigits 10 tick.toNat ≠ [] := Nat.toDigits_ne_nil
    obtain ⟨d, ds, hcons⟩ := List.exists_cons_of_ne_nil hne
    have hd := hdigits d (by simp [hcons])
    rw [hcons, List.cons_append, List.dropWhile_cons_of_neg (by simp [hd])]
  rw [lineTick, hdrop, List.takeWhile_append_of_pos hdigits,
    List.takeWhile_cons_of_neg (by simp [hmark]), List.append_nil, Nat.ofDigitChars_ten_toDigits]

theorem namesPosition_eq (h : Opens line tick rest) :
    namesPosition line = decide (['p', 'o', 's'] <:+: rest) := by
  obtain ⟨lead, mark, _, hp, hline⟩ := h
  obtain ⟨hmark, hlead⟩ : 'p' ∉ [mark] ∧ 'p' ∉ lead := by simpa using hp
  rw [namesPosition, hline, decide_eq_decide]
  constructor
  · intro hword
    have hword := infix_of_not_mem_front hlead hword
    have hword := infix_of_not_mem_front (not_mem_toDigits rfl _) hword
    exact infix_of_not_mem_front hmark hword
  · intro hword
    have hrest : rest <:+: lead ++ (Nat.toDigits 10 tick.toNat ++ mark :: rest) :=
      ⟨lead ++ (Nat.toDigits 10 tick.toNat ++ [mark]), [], by simp⟩
    exact hword.trans hrest

end Opens

theorem toList_tickColumn (tick : UInt64) :
    (tickColumn tick).toList =
      List.replicate (6 - (toString tick.toNat).length) ' ' ++ Nat.toDigits 10 tick.toNat := by
  simp [tickColumn, Layout.padLeft]

theorem opens_text {line : String} {tick : UInt64} {rest : List Char}
    (h : line.toList = (tickColumn tick).toList ++ ' ' :: rest) : Opens line tick rest := by
  refine ⟨_, ' ', ?_, ?_, by rw [h, toList_tickColumn, List.append_assoc]⟩
  · simp
  · simp [List.mem_replicate]

theorem opens_json (tick : UInt64) (field : String × Value) (fields : List (String × Value)) :
    Opens (Json.render (.object (("tick", .natural tick.toNat) :: field :: fields))) tick
      ([','].intercalate ((field :: fields).map Json.fieldText) ++ ['}']) := by
  refine ⟨"\x7b\"tick\":".toList, ',', by decide, by decide, ?_⟩
  have htick := Json.toList_textOf "tick" (by decide)
  rw [Json.toList_render_object, List.map_cons, List.map_cons, List.intercalate_cons_cons]
  simp [Json.fieldText, Json.toList_render_natural, htick]

/-! ### Events -/

namespace Happening

variable (h : Happening) (tick : UInt64)

theorem escaped_tag : h.tag.toList.flatMap Json.escaped = h.tag.toList := by
  cases h <;> simp only [tag] <;> decide

/-- The line of an event goes on with its tag. -/
theorem opens_line (json : Bool) :
    ∃ gap tail, 'p' ∉ gap ∧ 's' ∉ tail ∧
      Opens ((h.at tick).line json) tick (gap ++ (h.tag.toList ++ tail)) := by
  cases json with
  | false =>
      cases hnode : h.node with
      | none =>
          exact ⟨[' '], [], by decide, by decide,
            opens_text (by simp [Event.line, Happening.at, hnode])⟩
      | some n =>
          exact ⟨[' '], ' ' :: '#' :: Nat.toDigits 10 n, by decide, by simp [not_mem_toDigits],
            opens_text (by simp [Event.line, Happening.at, hnode])⟩
  | true =>
      have hnode : 's' ∉ (Json.render (.option (h.node.map .natural))).toList := by
        cases h.node with
        | none => decide
        | some n =>
            rw [Option.map_some, Value.option, Option.getD_some, Json.toList_render_natural]
            exact not_mem_toDigits rfl n
      have htag := Json.toList_textOf "tag" (by decide)
      have hname := Json.toList_textOf "node" (by decide)
      refine ⟨"\"tag\":\"".toList, "\",\"node\":".toList ++
        (Json.render (.option (h.node.map .natural))).toList ++ ['}'], by decide, by simp [hnode], ?_⟩
      have hopens : Opens ((h.at tick).line true) tick _ :=
        opens_json tick ("tag", .text h.tag) [("node", .option (h.node.map .natural))]
      simpa [Json.fieldText, List.intercalate_cons_cons, Json.render,
        Json.toList_textOf _ h.escaped_tag, htag, hname] using hopens

theorem lineTick_line (json : Bool) : lineTick ((h.at tick).line json) = tick.toNat := by
  obtain ⟨_, _, _, _, hopens⟩ := h.opens_line tick json
  exact hopens.lineTick_eq

/-- The word is not in the tag, it does not begin before it, and it does not end behind it. -/
theorem namesPosition_line (json : Bool) : namesPosition ((h.at tick).line json) = false := by
  obtain ⟨gap, tail, hgap, htail, hopens⟩ := h.opens_line tick json
  have htag : ¬ ['p', 'o', 's'] <:+: h.tag.toList := by
    cases h <;> simp only [tag] <;> decide
  rw [hopens.namesPosition_eq, decide_eq_false_iff_not]
  intro hword
  have hword : ['p', 'o'] ++ ['s'] <:+: h.tag.toList ++ tail := infix_of_not_mem_front hgap hword
  exact htag (infix_of_not_mem_back htail hword)

theorem newline_not_mem_line (json : Bool) : '\n' ∉ ((h.at tick).line json).toList := by
  cases json with
  | false =>
      have htag : '\n' ∉ h.tag.toList := by
        cases h <;> simp only [tag] <;> decide
      cases hnode : h.node <;>
        simp [Event.line, Happening.at, hnode, toList_tickColumn, List.mem_replicate,
          not_mem_toDigits, htag]
  | true => exact Json.newline_not_mem_render _

end Happening

/-! ### Records -/

theorem Planar.newline_not_mem_columns (width : Nat) (v : Planar) :
    '\n' ∉ (v.columns width).toList := by
  simp [columns, Layout.padLeft, Layout.newline_not_mem_fixed, List.mem_replicate]

namespace Record

variable (r : Record)

/-- The line of a record goes on with its position. -/
theorem opens_line (json : Bool) :
    ∃ rest, ['p', 'o', 's'] <:+: rest ∧ Opens (r.line json) r.tick rest := by
  cases json with
  | false =>
      refine ⟨" pos ".toList ++ (r.position.columns 8 ++ "  vel " ++ r.velocity.columns 7 ++
        r.marks).toList, ?_, opens_text (by simp [line])⟩
      exact List.infix_append_of_infix_left (by decide)
  | true =>
      refine ⟨_, ?_, opens_json r.tick ("position", encode r.position) _⟩
      have hname := Json.toList_textOf "position" (by decide)
      have hword : ['p', 'o', 's'] <:+: (Json.textOf "position").toList := by
        rw [hname]
        decide
      have hfield : (Json.textOf "position").toList <+:
          Json.fieldText ("position", encode r.position) := List.prefix_append ..
      rw [List.map_cons]
      exact List.infix_append_of_infix_left
        (hword.trans (hfield.trans (prefix_intercalate ..)).isInfix)

theorem lineTick_line (json : Bool) : lineTick (r.line json) = r.tick.toNat := by
  obtain ⟨_, _, hopens⟩ := r.opens_line json
  exact hopens.lineTick_eq

theorem namesPosition_line (json : Bool) : namesPosition (r.line json) = true := by
  obtain ⟨_, hword, hopens⟩ := r.opens_line json
  rw [hopens.namesPosition_eq, decide_eq_true hword]

theorem newline_not_mem_marks : '\n' ∉ r.marks.toList := by
  have hshots : '\n' ∉ (if r.shots.isEmpty then "" else
      "  shots " ++ toString r.shots.length).toList := by
    split <;> simp [not_mem_toDigits]
  have hmark : ∀ (b : Bool) (word : String), '\n' ∉ word.toList →
      '\n' ∉ (if b then word else "").toList := by
    intro b word hword
    cases b <;> simp [hword]
  simp only [marks, String.toList_append, List.mem_append, not_or]
  exact ⟨⟨⟨hshots, hmark _ _ (by decide)⟩, hmark _ _ (by decide)⟩, hmark _ _ (by decide)⟩

theorem newline_not_mem_line (json : Bool) : '\n' ∉ (r.line json).toList := by
  cases json with
  | false =>
      simp [line, toList_tickColumn, not_mem_toDigits, Planar.newline_not_mem_columns,
        r.newline_not_mem_marks, List.mem_replicate]
  | true => exact Json.newline_not_mem_render _

end Record

/-! ### Lines in a text -/

/-- A text that is printed line by line, cut at its line ends, is its lines and nothing after them. -/
theorem Command.Outcome.splitOn_text {o : Outcome} (h : ∀ line ∈ o.lines, '\n' ∉ line.toList) :
    o.text.toList.splitOn '\n' = o.lines.map String.toList ++ [[]] := by
  obtain ⟨lines, failure⟩ := o
  induction lines with
  | nil => rfl
  | cons line rest ih =>
      obtain ⟨hline, hrest⟩ := List.forall_mem_cons.mp h
      have htext : (Outcome.text ⟨line :: rest, failure⟩).toList =
          line.toList ++ '\n' :: (Outcome.text ⟨rest, failure⟩).toList := by
        simp [Outcome.text, String.toList_join]
      rw [htext, List.splitOn_append_cons_self_of_not_mem hline, ih hrest]
      rfl

end Choreo
