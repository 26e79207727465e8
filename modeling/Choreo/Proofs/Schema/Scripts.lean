import Choreo.Proofs.Reactivation
import Choreo.Proofs.Schema.Records
import Choreo.Schema.Scripts

/-!
# Reading back scripts

What is written of a node is its header and the fields of its kind, and nothing that a run has made
of it. From any faithful source they are read as the pristine node: the header is sorted out of the
entries, the kind out of the rest, and what is left belongs to the kind. Nodes below are read from
plain values, as many levels deep as the value goes.
-/

namespace Choreo

/-! ### Leaves -/

theorem Wait.recovers (a : Wait) : Wait.schema.Recovers (Leaf.wait a).entries { a with elapsed := 0 } :=
  ⟨by decide, .required (restores_single _) .nil⟩

theorem MoveBy.recovers (a : MoveBy) :
    MoveBy.schema.Recovers (Leaf.moveBy a).entries
      { a with direction := .zero, distance := 0, travelled := 0 } :=
  ⟨by decide, .required (restores_planar _) (.required (restores_single _) .nil)⟩

theorem FollowPath.recovers (a : FollowPath) :
    FollowPath.schema.Recovers (Leaf.followPath a).entries { a with follower := {} } :=
  ⟨by decide, .required (restores_path _) (.required (restores_single _)
    (.optional (restores_planar _) .nil))⟩

theorem FollowBezier.recovers (a : FollowBezier) :
    FollowBezier.schema.Recovers (Leaf.followBezier a).entries
      { a with curveSpeed := 0, follower := {} } :=
  ⟨by decide, .required (restores_bezier _) (.required (restores_single _)
    (.optional (restores_planar _) .nil))⟩

theorem Jump.recovers (a : Jump) :
    Jump.schema.Recovers (Leaf.jump a).entries { a with requested := false } :=
  ⟨by decide, .required (restores_single _) .nil⟩

theorem SingleShot.recovers (a : SingleShot) :
    SingleShot.schema.Recovers (Leaf.singleShot a).entries { a with fired := false } :=
  ⟨by decide, .optional (restores_single _) (.optional (restores_aim _) .nil)⟩

theorem Barrage.recovers (a : Barrage) :
    Barrage.schema.Recovers (Leaf.barrage a).entries { a with elapsed := 0, fired := 0 } :=
  ⟨by decide, .required (restores_single _) (.required (restores_single _)
    (.required (restores_word32 _) (.optional (restores_single _)
      (.optional (restores_aim _) .nil))))⟩

theorem Attack.recovers (a : Attack) :
    Attack.schema.Recovers (Leaf.attack a).entries { a with done := false } :=
  ⟨by decide, .optional (restores_aim _) (.optional (restores_single _) .nil)⟩

theorem Lob.recovers (a : Lob) : Lob.schema.Recovers (Leaf.lob a).entries { a with done := false } :=
  ⟨by decide, .optional (restores_aim _) (.optional (restores_single _)
    (.required (restores_single _) .nil))⟩

theorem Walk.recovers (a : Walk) : Walk.schema.Recovers (Leaf.walk a).entries a :=
  ⟨by decide, .required (restores_single _) .nil⟩

namespace Node

theorem ofKind_leaf (child : Value → Except DecodeError Node) (h : Header) (a : Leaf)
    {told : List (String × Value)} (htold : Value.narrowedFields told = a.entries) :
    ofKind child h ⟨Value.named told, .ok ()⟩ a.kind = .ok (leaf h a.pristine) := by
  cases a with
  | wait a | moveBy a | followPath a | followBezier a | jump a | singleShot a | barrage a | attack a
  | lob a | walk a =>
      rw [Leaf.kind, ofKind, a.recovers.readEntries htold]
      rfl

/-! ### What is written of a node -/

/-- The fields that belong to the kind of a node. -/
def bodyEntries : Node → List (String × Value)
  | leaf _ a => a.entries
  | sequence _ children _ | parallel _ children _ =>
    [("children", .list (children.map toValue))]
  | repeating _ child _ => [("child", .option (child.map toValue))]

theorem allToValues_eq_map (nodes : List Node) : allToValues nodes = nodes.map toValue := by
  induction nodes with
  | nil => rfl
  | cons n rest ih => rw [allToValues, ih, List.map_cons]

theorem toValue_eq (n : Node) :
    n.toValue = .object (headerEntries n.header n.kind ++ n.bodyEntries) := by
  cases n with
  | leaf h a => rfl
  | sequence h nodes cursor => rw [toValue, allToValues_eq_map]; rfl
  | parallel h nodes running => rw [toValue, allToValues_eq_map]; rfl
  | repeating h child running => cases child <;> rfl

/-- The fields of a kind have names of their own. -/
theorem body_names (n : Node) :
    ∀ name ∈ n.bodyEntries.map (·.1), name ≠ "label" ∧ name ≠ "enabled" ∧ name ≠ "kind" := by
  cases n with
  | leaf h a => cases a <;> simp [bodyEntries, Leaf.entries]
  | _ => simp [bodyEntries]

/-- Texts and flags are not changed by narrowing. -/
theorem header_of_narrowed {told written : List (String × Value)} {h : Header} {kind : Kind}
    (htold : Value.narrowedFields told = headerEntries h kind ++ written) :
    ∃ rest, told = headerEntries h kind ++ rest ∧ Value.narrowedFields rest = written := by
  have hswitch {told : List (String × Value)}
      (htold : Value.narrowedFields told =
        ("enabled", .flag h.enabled) :: ("kind", .text kind.name) :: written) :
      ∃ rest, told = ("enabled", .flag h.enabled) :: ("kind", .text kind.name) :: rest ∧
        Value.narrowedFields rest = written := by
    obtain ⟨told, rfl, hkind⟩ := Value.cons_of_narrowed (fun _ => Value.flag_of_narrowed) htold
    obtain ⟨rest, rfl, hrest⟩ := Value.cons_of_narrowed (fun _ => Value.text_of_narrowed) hkind
    exact ⟨rest, rfl, hrest⟩
  rw [headerEntries] at htold ⊢
  cases hlabel : h.label with
  | none =>
      rw [hlabel] at htold
      exact hswitch htold
  | some label =>
      rw [hlabel] at htold
      obtain ⟨told, rfl, hmore⟩ := Value.cons_of_narrowed (fun _ => Value.text_of_narrowed) htold
      obtain ⟨rest, rfl, hrest⟩ := hswitch hmore
      exact ⟨rest, rfl, hrest⟩

/-! ### Sorting the entries -/

section Sorting

variable {σ : Type} [Source σ] {keeps : σ → Value → Prop}

variable (hkeeps : Source.Faithful keeps)
include hkeeps

theorem add_other {e : Key × σ} {f : String × Value} (he : Source.KeepsEntry keeps e f)
    (hlabel : f.1 ≠ "label") (henabled : f.1 ≠ "enabled") (g : Gathered) :
    g.add e = .ok { g with others := g.others ++ [(.text f.1, f.2)] } := by
  obtain ⟨key, s⟩ := e
  obtain ⟨rfl, hs⟩ := he
  rw [Gathered.add]
  split
  · next h => exact absurd (Key.text.inj h) hlabel
  · next h => exact absurd (Key.text.inj h) henabled
  · next h => cases h
  · simp [hkeeps.buffer hs]

theorem add_label {s : σ} {label : String} (hs : keeps s (.text label)) {g : Gathered}
    (hfirst : g.label = none) :
    g.add (.text "label", s) = .ok { g with label := some (some label) } := by
  obtain ⟨hnull, htext⟩ := hkeeps.text hs
  simp [Gathered.add, hfirst, Source.optional, hnull, htext]

theorem add_enabled {s : σ} {enabled : Bool} (hs : keeps s (.flag enabled)) {g : Gathered}
    (hfirst : g.enabled = none) :
    g.add (.text "enabled", s) = .ok { g with enabled := some enabled } := by
  simp [Gathered.add, hfirst, hkeeps.flag hs]

theorem foldlM_others {entries : List (Key × σ)} {fields : List (String × Value)}
    (hentries : List.Forall₂ (Source.KeepsEntry keeps) entries fields)
    (hnames : ∀ name ∈ fields.map (·.1), name ≠ "label" ∧ name ≠ "enabled") (g : Gathered) :
    entries.foldlM Gathered.add g = .ok { g with others := g.others ++ Value.named fields } := by
  induction hentries generalizing g with
  | nil => simp [Value.named]
  | @cons e f entries fields he hentries ih =>
      obtain ⟨hlabel, henabled⟩ := hnames f.1 (by simp)
      have hrest := ih fun name hname => hnames name (by simp [hname])
      rw [List.foldlM_cons, add_other hkeeps he hlabel henabled, ok_bind, hrest]
      simp [Value.named]

/-- The header is sorted out, and the kind and its fields are left. -/
theorem foldlM_add {entries : List (Key × σ)} {h : Header} {kind : Kind}
    {rest : List (String × Value)}
    (hentries : List.Forall₂ (Source.KeepsEntry keeps) entries (headerEntries h kind ++ rest))
    (hnames : ∀ name ∈ rest.map (·.1), name ≠ "label" ∧ name ≠ "enabled") :
    entries.foldlM Gathered.add ({} : Gathered) =
      .ok { label := h.label.map some, enabled := some h.enabled
            others := Value.named (("kind", .text kind.name) :: rest) } := by
  have hothers : ∀ name ∈ (("kind", Value.text kind.name) :: rest).map (·.1),
      name ≠ "label" ∧ name ≠ "enabled" := by
    simpa using hnames
  have hswitch {entries : List (Key × σ)} (g : Gathered) (hfirst : g.enabled = none)
      (hentries : List.Forall₂ (Source.KeepsEntry keeps) entries
        (("enabled", .flag h.enabled) :: ("kind", .text kind.name) :: rest)) :
      entries.foldlM Gathered.add g =
        .ok { g with enabled := some h.enabled
                     others := g.others ++ Value.named (("kind", .text kind.name) :: rest) } := by
    obtain ⟨⟨key, s⟩, entries, ⟨rfl, hs⟩, hkind, rfl⟩ := List.forall₂_cons_right_iff.mp hentries
    rw [List.foldlM_cons, add_enabled hkeeps hs hfirst, ok_bind, foldlM_others hkeeps hkind hothers]
  rw [headerEntries] at hentries
  cases hlabel : h.label with
  | none =>
      rw [hlabel] at hentries
      exact hswitch {} rfl hentries
  | some label =>
      rw [hlabel] at hentries
      obtain ⟨⟨key, s⟩, entries, ⟨rfl, hs⟩, hmore, rfl⟩ := List.forall₂_cons_right_iff.mp hentries
      rw [List.foldlM_cons, add_label hkeeps hs rfl, ok_bind]
      exact hswitch _ rfl hmore

end Sorting

/-! ### Nodes -/

theorem known_kind (kind : Kind) :
    ∃ place : Fin (Kind.all.map Kind.name).length,
      Source.known (Kind.all.map Kind.name) (.text kind.name) = .ok place ∧
        Kind.all.get ⟨place.val, by simpa using place.isLt⟩ = kind := by
  cases kind <;> exact ⟨_, rfl, rfl⟩

theorem childrenSchema_recovers (child : Value → Except DecodeError Node) (name : String)
    {nodes : List Node} (hchild : ∀ c ∈ nodes, Restores child c.toValue (c.retouch .pristine)) :
    (childrenSchema child name).Recovers [("children", .list (nodes.map toValue))]
      (nodes.map (retouch .pristine)) :=
  ⟨List.nodup_singleton _, .optional (restores_list (retouch .pristine) hchild) .nil⟩

theorem childSchema_recovers (child : Value → Except DecodeError Node) {node : Option Node}
    (hchild : ∀ c ∈ node.toList, Restores child c.toValue (c.retouch .pristine)) :
    (childSchema child).Recovers [("child", .option (node.map toValue))]
      (node.map (retouch .pristine)) := by
  refine ⟨List.nodup_singleton _, .optional ?_ .nil⟩
  cases node with
  | none =>
      intro w hw
      obtain rfl := Value.null_of_narrowed hw
      rfl
  | some c =>
      intro w hw
      have hread := hchild c (by simp) w hw
      obtain ⟨told, rfl, htold⟩ := Value.object_of_narrowed (hw.trans c.toValue_eq)
      have hnull : Source.isNull (Value.object told) = .ok false := rfl
      simp [Source.optional, hnull, hread]

theorem ofKind_ok (child : Value → Except DecodeError Node) (n : Node)
    (hchild : ∀ c ∈ n.children, Restores child c.toValue (c.retouch .pristine))
    {told : List (String × Value)} (htold : Value.narrowedFields told = n.bodyEntries) :
    ofKind child (Retouch.pristine.header n.header) ⟨Value.named told, .ok ()⟩ n.kind =
      .ok (n.retouch .pristine) := by
  cases n with
  | leaf h a => exact ofKind_leaf child _ a htold
  | sequence h nodes cursor =>
      have hrecovers := childrenSchema_recovers child "Sequence" hchild
      rw [kind, ofKind, hrecovers.readEntries htold, map_ok, retouch_sequence]
      rfl
  | parallel h nodes running =>
      have hrecovers := childrenSchema_recovers child "Parallel" hchild
      rw [kind, ofKind, hrecovers.readEntries htold, map_ok, retouch_parallel]
      rfl
  | repeating h node running =>
      have hrecovers := childSchema_recovers child hchild
      rw [kind, ofKind, hrecovers.readEntries htold, map_ok, retouch_repeating]
      rfl

/-- A node is read from any faithful source, if the nodes below it are read from plain values. -/
theorem read_ok {σ : Type} [Source σ] {keeps : σ → Value → Prop} (hkeeps : Source.Faithful keeps)
    (child : Value → Except DecodeError Node) (n : Node)
    (hchild : ∀ c ∈ n.children, Restores child c.toValue (c.retouch .pristine)) {v : Value}
    (hv : v.narrowed = n.toValue) {s : σ} (hs : keeps s v) :
    read child s = .ok (n.retouch .pristine) := by
  rw [toValue_eq] at hv
  obtain ⟨told, rfl, htold⟩ := Value.object_of_narrowed hv
  obtain ⟨rest, rfl, hrest⟩ := header_of_narrowed htold
  obtain ⟨entries, hshape, hentries⟩ := hkeeps.object hs
  have hnames : ∀ name ∈ rest.map (·.1), name ≠ "label" ∧ name ≠ "enabled" ∧ name ≠ "kind" := by
    rw [Value.names_of_narrowed hrest]
    exact n.body_names
  have hgathered := foldlM_add hkeeps hentries fun name hname =>
    ⟨(hnames name hname).1, (hnames name hname).2.1⟩
  obtain ⟨place, hplace, hkind⟩ := known_kind n.kind
  have hsplit := splitTag_cons hplace fun hmem => (hnames "kind" hmem).2.2 rfl
  have hheader : Gathered.header
      { label := n.header.label.map some, enabled := some n.header.enabled
        others := Value.named (("kind", .text n.kind.name) :: rest) } =
      Retouch.pristine.header n.header := by
    cases hlabel : n.header.label <;> simp [Gathered.header, Retouch.pristine, hlabel]
  have hentriesOf : Source.entries "struct ActionNode" s = .ok ⟨entries, .ok ()⟩ := by
    simp [Source.entries, hshape]
  simp only [read, hentriesOf, hgathered, hsplit, ok_bind, hheader, hkind]
  exact ofKind_ok child n hchild hrest

/-- Children are nested inside what is written of a node. -/
theorem depth_toValue_lt {n c : Node} (hc : c ∈ n.children) : c.toValue.depth < n.toValue.depth := by
  have hbody {name : String} {v : Value} (hv : (name, v) ∈ n.bodyEntries) :
      v.depth < n.toValue.depth := by
    rw [toValue_eq]
    exact Value.depth_lt_object (List.mem_append_right _ hv)
  have hlist {nodes : List Node} (hmem : c ∈ nodes)
      (hnodes : ("children", Value.list (nodes.map toValue)) ∈ n.bodyEntries) :
      c.toValue.depth < n.toValue.depth :=
    calc c.toValue.depth < (Value.list (nodes.map toValue)).depth :=
          Value.depth_lt_list (List.mem_map_of_mem hmem)
      _ < n.toValue.depth := hbody hnodes
  cases n with
  | leaf h a => exact absurd hc List.not_mem_nil
  | sequence h nodes cursor => exact hlist hc (List.mem_singleton_self _)
  | parallel h nodes running => exact hlist hc (List.mem_singleton_self _)
  | repeating h node running =>
      obtain rfl := Option.mem_toList.mp hc
      exact hbody (List.mem_singleton_self _)

/-- A plain value is deep enough to read all of it. -/
theorem restores_ofValue (n : Node) {depth : Nat} (hdepth : n.toValue.depth ≤ depth) :
    Restores (ofValue depth) n.toValue (n.retouch .pristine) := by
  induction n generalizing depth with
  | node n ih =>
      intro w hw
      cases depth with
      | zero => rw [toValue_eq] at hdepth; exact absurd hdepth (Nat.not_succ_le_zero _)
      | succ depth =>
          rw [ofValue]
          refine read_ok Value.faithful (ofValue depth) n (fun c hc => ?_) hw rfl
          have := depth_toValue_lt hc
          exact ih c hc (by omega)

theorem decode_ok {σ : Type} [Source σ] {keeps : σ → Value → Prop} (hkeeps : Source.Faithful keeps)
    (n : Node) {v : Value} (hv : v.narrowed = encode n) {s : σ} (hs : keeps s v) :
    decode s = .ok (n.retouch .pristine) := by
  refine read_ok hkeeps _ n (fun c _ w hw => ?_) hv hs
  have hdepth : w.depth = c.toValue.depth := by rw [← Value.depth_narrowed, hw]
  exact restores_ofValue c hdepth.ge w hw

end Node

/-! ### Scripts -/

/-- A map with one entry is read as the form that its name stands for. -/
theorem Script.form_of_narrowed {σ : Type} [Source σ] {keeps : σ → Value → Prop}
    (hkeeps : Source.Faithful keeps) {v content : Value} {name : String}
    (hv : v.narrowed = .object [(name, content)]) {s : σ} (hs : keeps s v) :
    ∃ inner t, Source.choice s = .ok ⟨.text name, some t, .ok ()⟩ ∧ keeps t inner ∧
      inner.narrowed = content := by
  obtain ⟨told, rfl, htold⟩ := Value.object_of_narrowed hv
  obtain ⟨⟨_, inner⟩, rest, rfl, hfirst, hrest⟩ := List.map_eq_cons_iff.mp htold
  obtain ⟨rfl, hinner⟩ := Prod.mk.inj hfirst
  obtain rfl := List.map_eq_nil_iff.mp hrest
  obtain ⟨t, hchoice, ht⟩ := hkeeps.choice hs
  exact ⟨inner, t, hchoice, ht, hinner⟩

/-- From any faithful source a script is read as it was before it was run. -/
theorem Script.decode_ok {σ : Type} [Source σ] {keeps : σ → Value → Prop}
    (hkeeps : Source.Faithful keeps) (script : Script) {v : Value} (hv : v.narrowed = encode script)
    {s : σ} (hs : keeps s v) : decode s = .ok script.pristine := by
  change Script.read s = _
  cases script with
  | tree root =>
      obtain ⟨inner, t, hchoice, ht, hinner⟩ := Script.form_of_narrowed hkeeps hv hs
      have hform : Source.known Script.forms (.text "tree") = .ok ⟨0, by decide⟩ := rfl
      have hroot := Node.decode_ok hkeeps root hinner ht
      simp [Script.read, hchoice, hform, hroot]
      rfl
  | flat actions cursor =>
      obtain ⟨inner, t, hchoice, ht, hinner⟩ := Script.form_of_narrowed hkeeps hv hs
      have hform : Source.known Script.forms (.text "sequence") = .ok ⟨1, by decide⟩ := rfl
      obtain ⟨told, rfl, htold⟩ := Value.list_of_narrowed hinner
      have hactions : decode t = .ok (actions.map (Node.retouch .pristine)) :=
        hkeeps.list_ok ht htold fun n _ v s hv hs => Node.decode_ok hkeeps n hv hs
      simp [Script.read, hchoice, hform, hactions]
      rfl

/-! ### What is written is narrow -/

open Value

theorem Leaf.isNarrow (a : Leaf) : ∀ f ∈ a.entries, f.2.IsNarrow := by
  have hnatural : ∀ n : Nat, (Value.natural n).IsNarrow := fun _ => rfl
  cases a <;>
    simp [entries, Single.isNarrow, Planar.isNarrow, Path.isNarrow, Bezier.isNarrow, Aim.isNarrow,
      hnatural]

theorem Header.isNarrow (h : Header) (kind : Kind) :
    ∀ f ∈ Node.headerEntries h kind, f.2.IsNarrow := by
  have htext : ∀ t, (Value.text t).IsNarrow := fun _ => rfl
  have hflag : ∀ b, (Value.flag b).IsNarrow := fun _ => rfl
  rw [Node.headerEntries]
  cases h.label <;> simp [htext, hflag]

theorem Node.isNarrow (n : Node) : n.toValue.IsNarrow := by
  induction n with
  | node n ih =>
    have hbody : ∀ f ∈ n.bodyEntries, f.2.IsNarrow := by
      cases n with
      | leaf h a => exact a.isNarrow
      | sequence h nodes cursor | parallel h nodes running =>
          have hnodes : (Value.list (nodes.map toValue)).IsNarrow := isNarrow_list ih
          simpa [bodyEntries] using hnodes
      | repeating h child running =>
          have hchild : (Value.option (child.map toValue)).IsNarrow := by
            cases child with
            | none => rfl
            | some child => exact ih child (by simp [children])
          simpa [bodyEntries] using hchild
    rw [toValue_eq]
    apply isNarrow_object
    intro f hf
    obtain hf | hf := List.mem_append.mp hf
    · exact n.header.isNarrow n.kind f hf
    · exact hbody f hf

theorem Script.isNarrow (s : Script) : (encode s).IsNarrow := by
  cases s with
  | tree root =>
      have hroot : (encode root).IsNarrow := root.isNarrow
      apply isNarrow_object
      simpa using hroot
  | flat actions cursor =>
      have hactions : (encode actions).IsNarrow := isNarrow_list fun n _ => n.isNarrow
      apply isNarrow_object
      simpa using hactions

end Choreo
