import Choreo.Loading
import Choreo.Proofs.Json.Deferral
import Choreo.Proofs.Schema.Widening

/-!
# Rephrased scripts

The order in which the keys of a script are written says nothing, and neither do keys that a node does
not have. A script that is rephrased in such ways, at any depth and any number of times, is the same
script when it is read, or is as unreadable as before.
-/

namespace Choreo

open Value

namespace Script

variable {σ : Type} [Source σ]

/-- What a script of the given form holds. -/
def body (form : Fin forms.length) (content : σ) : Except DecodeError Script :=
  if form.val = 0 then tree <$> decode content else (flat ·) <$> decode content

/-- A script from its form and what stands in it. -/
def ofChoice (c : Choice σ) : Except DecodeError Script := do
  let form ← Source.known forms c.name
  let content ← c.content.elim (throw (.wrongType .bareVariant "newtype variant")) pure
  let script ← body form content
  c.closing
  pure script

theorem read_eq (s : σ) : read s = Source.choice s >>= ofChoice := by
  refine congrArg _ (funext fun c => congrArg _ (funext fun form => ?_))
  cases c.content with
  | none => rfl
  | some content =>
      change _ = body form content >>= _
      unfold body
      dsimp only
      split <;> rfl

/-! ### The order of keys -/

theorem blind_body (form : Fin forms.length) : Blind (body form) := by
  unfold body
  split
  · exact Node.blind_decode.map tree
  · exact Node.blind_decode.list.map (flat ·)

theorem blind_read : Blind (read : Value → Except DecodeError Script) := by
  intro v w h
  rw [read_eq, read_eq]
  refine h.choice.bind ?_
  rintro ⟨name, _, closing⟩ ⟨_, _, _⟩ ⟨rfl, rfl, v, w, rfl, rfl, hvw⟩
  refine (Concur.refl _).bind fun form => ?_
  exact ((blind_body form).of_reflGen hvw).bind fun _ => Concur.refl _

/-! ### Keys that no node has -/

/-- A key is added to a node of the script, which is none of its fields. -/
inductive Widened : Value → Value → Prop
  | tree (left right : List (Key × Value)) {v w : Value} (h : Node.Widened v w) :
      Widened (.record (left ++ (.text "tree", v) :: right))
        (.record (left ++ (.text "tree", w) :: right))
  | action (left right : List (Key × Value)) (before after : List Value) {v w : Value}
      (h : Node.Widened v w) :
      Widened (.record (left ++ (.text "sequence", .list (before ++ v :: after)) :: right))
        (.record (left ++ (.text "sequence", .list (before ++ w :: after)) :: right))

theorem read_entry {v w : Value} {key : Key}
    (h : ∀ form, Source.known forms key = .ok form → Concur (body form v) (body form w))
    (left right : List (Key × Value)) :
    Concur (read (Value.record (left ++ (key, v) :: right)))
      (read (Value.record (left ++ (key, w) :: right))) := by
  rw [read_eq, read_eq]
  match left, right with
  | [], [] =>
      change Concur (Source.known forms key >>= _) (Source.known forms key >>= _)
      cases hform : Source.known forms key with
      | ok form => exact (h form hform).bind fun _ => Concur.refl _
      | error fault => exact .error _ _
  | [], _ :: _ => exact .error _ _
  | [_], _ => exact .error _ _
  | _ :: _ :: _, _ => exact .error _ _

theorem Widened.concur_read {v w : Value} (h : Widened v w) : Concur (read v) (read w) := by
  cases h with
  | tree left right h =>
      refine read_entry (fun form hform => ?_) left right
      obtain rfl : (0 : Fin 2) = form := Except.ok.inj hform
      exact h.concur_decode.map Script.tree
  | action left right before after h =>
      refine read_entry (fun form hform => ?_) left right
      obtain rfl : (1 : Fin 2) = form := Except.ok.inj hform
      exact (concur_list_replace h.concur_decode before after).map (flat ·)

/-- The keys of a script take other orders, and keys are added that its nodes do not have. -/
def Rephrased : Value → Value → Prop :=
  Relation.ReflTransGen fun v w => v.Reordered w ∨ Widened v w

theorem Rephrased.concur {v w : Value} (h : Rephrased v w) :
    Concur (decode v : Except DecodeError Script) (decode w) := by
  induction h with
  | refl => exact Concur.refl _
  | tail _ hstep ih =>
      rcases hstep with hstep | hstep
      · exact ih.trans (blind_read hstep)
      · exact ih.trans hstep.concur_read

/-! ### JSON -/

theorem deferrable_body (form : Fin forms.length) : Json.Deferrable (body form) (body form) := by
  have hnode : Json.Deferrable (decode : Json → Except DecodeError Node) decode :=
    Json.deferrable_node _
  unfold body
  split
  · exact hnode.map tree
  · exact hnode.list.map (flat ·)

/-- A map with one key is a script of the form of that key. -/
theorem concur_read_single (name : String) (content : Json) (closed : Bool) :
    Concur (read (Json.record [(some name, content)] closed))
      ((Json.record [(some name, content)] closed).toValue >>= read) := by
  have hread : read (Json.record [(some name, content)] closed) =
      Source.known forms (.text name) >>= fun form => body form content >>= fun script =>
        Json.closing closed >>= fun _ => pure script := read_eq _
  have hlater : ((Json.record [(some name, content)] closed).toValue >>= read) =
      content.toValue >>= fun v => Json.closing closed >>= fun _ =>
        Source.known forms (.text name) >>= fun form => body form v >>= pure := by
    have hkept (v : Value) : read (Value.record [(.text name, v)]) =
        Source.known forms (.text name) >>= fun form => body form v >>= pure := read_eq _
    simp only [Json.toValue, Json.entriesToValues, bind_assoc, pure_bind, hkept]
  have hbody (form : Fin forms.length) :=
    Json.concur_closing (deferrable_body form content) closed pure
  rw [hread, hlater]
  refine ((Concur.refl _).bind hbody).trans ((Concur.swap _ _ _).trans ?_)
  exact (Concur.refl _).bind fun v => Concur.swap _ _ _

/-- A map with several keys is not a script. -/
theorem concur_read_several (e e' : Option String × Json) (rest : List (Option String × Json))
    (closed : Bool) :
    Concur (read (Json.record (e :: e' :: rest) closed))
      ((Json.record (e :: e' :: rest) closed).toValue >>= read) := by
  have hread : read (Json.record (e :: e' :: rest) closed) =
      Source.known forms (Json.key e.1) >>= fun form => body form e.2 >>= fun _ =>
        throw .malformed := read_eq _
  obtain ⟨fault, hfault⟩ : ∃ fault, read (Json.record (e :: e' :: rest) closed) = .error fault := by
    rw [hread]
    rcases Source.known forms (Json.key e.1) with fault | form
    · exact ⟨fault, rfl⟩
    · rw [ok_bind]
      cases body form e.2 <;> exact ⟨_, rfl⟩
  rw [hfault]
  refine Json.concur_record_error fault closed fun values hvalues => ?_
  have hlength := Json.length_of_entriesToValues hvalues
  obtain ⟨fault', hfault'⟩ := @choice_of_length_ne values (by simp [hlength])
  exact ⟨fault', by rw [read_eq, hfault']; rfl⟩

/-- A script is read from a tree as it is read from what is kept of the tree. -/
theorem deferrable_read : Json.Deferrable (read : Json → Except DecodeError Script) read := by
  intro j
  cases j with
  | text s => exact Concur.refl _
  | list items closed => exact Json.concur_list_error _ closed fun _ _ => ⟨_, rfl⟩
  | record entries closed =>
      match entries with
      | [] => cases closed <;> exact .error _ _
      | [(none, content)] => exact .error _ _
      | [(some name, content)] => exact concur_read_single name content closed
      | e :: e' :: rest => exact concur_read_several e e' rest closed
  | _ => exact .error _ _

end Script

/-! ### Texts -/

/-- The text is of one tree, all of which can be kept as the value. -/
def Json.Holds (text : String) (v : Value) : Prop :=
  (ofText text).complete = true ∧ (ofText text).root.toValue = .ok v

instance (text : String) (v : Value) : Decidable (Json.Holds text v) :=
  decidable_of_iff ((Json.ofText text).complete = true ∧
    (Json.ofText text).root.toValue.toOption = some v) <| by
    rw [Json.Holds]
    cases (Json.ofText text).root.toValue <;> simp [Except.toOption]

namespace Script

/-- A text is a script, if it holds a value that is one. -/
theorem ofJson_eq_ok {text : String} {script : Script} :
    ofJson text = .ok script ↔ ∃ v, Json.Holds text v ∧ decode v = .ok script := by
  have hread : Json.read text = .ok script ↔
      decode (Json.ofText text).root = .ok script ∧ (Json.ofText text).complete = true := by
    cases hcomplete : (Json.ofText text).complete <;>
      simp [Json.read, hcomplete, bind_eq_ok_iff]
  have hofJson : ofJson text = .ok script ↔ Json.read text = .ok script := by
    rw [ofJson]
    cases (Json.read text : Except DecodeError Script) <;> simp [Except.mapError]
  have hroot := Concur.iff.mp (deferrable_read (Json.ofText text).root) script
  rw [bind_eq_ok_iff] at hroot
  rw [hofJson, hread]
  constructor
  · rintro ⟨hdecode, hcomplete⟩
    obtain ⟨v, hv, hscript⟩ := hroot.mp hdecode
    exact ⟨v, ⟨hcomplete, hv⟩, hscript⟩
  · rintro ⟨v, ⟨hcomplete, hv⟩, hscript⟩
    exact ⟨hroot.mpr ⟨v, hv, hscript⟩, hcomplete⟩

end Script

/-- **Key order and unknown keys do not matter.** A value whose keys are put in another order, at any
depth, and to whose nodes keys are added that are none of their fields, is read as the same script, or
as none again: as a plain value, from a tree of JSON, and from a whole text. -/
theorem key_order_and_unknown_keys_do_not_matter {v w : Value} (h : Script.Rephrased v w)
    (script : Script) :
    (decode v = .ok script ↔ decode w = .ok script) ∧
    (∀ j k : Json, j.toValue = .ok v → k.toValue = .ok w →
      (decode j = .ok script ↔ decode k = .ok script)) ∧
    ∀ text text' : String, Json.Holds text v → Json.Holds text' w →
      (Script.ofJson text = .ok script ↔ Script.ofJson text' = .ok script) := by
  have hvalue := Concur.iff.mp h.concur script
  refine ⟨hvalue, fun j k hj hk => ?_, fun text text' htext htext' => ?_⟩
  · have hkept {t : Json} {u : Value} (ht : t.toValue = .ok u) :
        decode t = .ok script ↔ decode u = .ok script := by
      have hlater := Concur.iff.mp (Script.deferrable_read t) script
      rwa [ht] at hlater
    rw [hkept hj, hkept hk, hvalue]
  · have hheld {t : String} {u : Value} (ht : Json.Holds t u) :
        Script.ofJson t = .ok script ↔ decode u = .ok script := by
      rw [Script.ofJson_eq_ok]
      constructor
      · rintro ⟨u', ⟨_, hu'⟩, hscript⟩
        obtain rfl : u' = u := Except.ok.inj (hu'.symm.trans ht.2)
        exact hscript
      · exact fun hscript => ⟨u, ht, hscript⟩
    rw [hheld htext, hheld htext', hvalue]

/-- A walk along a path, written with its kind and its shape ahead of the fields that they select, and
then behind them and with a note. -/
theorem key_order_and_unknown_keys_do_not_matter_tags :
    let written := "\x7b\"sequence\":[\x7b\"kind\":\"move_along_path\",\"speed\":2," ++
      "\"path\":\x7b\"shape\":\"polyline\",\"points\":[[0,0],[1,2]]\x7d\x7d]\x7d"
    let rephrased := "\x7b\"sequence\":[\x7b\"note\":\"uphill\"," ++
      "\"path\":\x7b\"points\":[[0,0],[1,2]],\"shape\":\"polyline\"\x7d," ++
      "\"speed\":2,\"kind\":\"move_along_path\"\x7d]\x7d"
    ∃ script, Script.ofJson written = .ok script ∧ Script.ofJson rephrased = .ok script := by
  intro written rephrased
  let kind : Key × Value := (.text "kind", .text "move_along_path")
  let speed : Key × Value := (.text "speed", natural 2)
  let shape : Key × Value := (.text "shape", .text "polyline")
  let points : Key × Value := (.text "points",
    .list [.list [natural 0, natural 0], .list [natural 1, natural 2]])
  let path (entries : List (Key × Value)) : Key × Value := (.text "path", .record entries)
  let script (action : List (Key × Value)) : Value :=
    .record [(.text "sequence", .list [.record action])]
  have hshape : (script [kind, speed, path [shape, points]]).Reordered
      (script [kind, speed, path [points, shape]]) :=
    .entry [] _ [] (.item [] [] (.entry [kind, speed] _ [] (.entries (.swap _ _ _))))
  have hkind : (script [kind, speed, path [points, shape]]).Reordered
      (script [path [points, shape], speed, kind]) :=
    .entry [] _ [] (.item [] [] (.entries (by decide)))
  have hfresh (k : Kind) : "note" ∉ Node.fieldNames k := by cases k <;> decide
  have hnote : Script.Widened (script [path [points, shape], speed, kind])
      (script [(.text "note", .text "uphill"), path [points, shape], speed, kind]) :=
    .action [] [] [] [] (@Node.Widened.key [] _ "note" _ (by decide) fun _ _ _ _ => hfresh _)
  have hrephrased : Script.Rephrased (script [kind, speed, path [shape, points]])
      (script [(.text "note", .text "uphill"), path [points, shape], speed, kind]) :=
    ((Relation.ReflTransGen.single (.inl hshape)).tail (.inl hkind)).tail (.inr hnote)
  have hwritten : Json.Holds written (script [kind, speed, path [shape, points]]) := by decide +kernel
  have hheld : Json.Holds rephrased
      (script [(.text "note", .text "uphill"), path [points, shape], speed, kind]) := by decide +kernel
  obtain ⟨read, hread⟩ : ∃ script, Script.ofJson written = .ok script :=
    ⟨_, Script.ofJson_eq_ok.mpr ⟨_, hwritten, rfl⟩⟩
  obtain ⟨_, _, htexts⟩ := key_order_and_unknown_keys_do_not_matter hrephrased read
  exact ⟨read, hread, (htexts written rephrased hwritten hheld).mp hread⟩

end Choreo
