import Choreo.Proofs.Schema.KeyOrder
import Choreo.Schema.Scripts
import Mathlib.Tactic.MkIffOfInductiveProp

/-!
# Unknown keys of a node

A node is a map of its label, its switch, its kind and the fields of its kind, in any order. What
stands under any other key is passed over, so a node is not changed by such keys, and neither is the
tree above it. How many levels a reading goes down plays no part in it, as long as they are enough.
-/

namespace Choreo

open Value

/-! ### Leaves -/

theorem Wait.orderless : Field.Orderless (Wait.schema : Schema Value Wait).fields :=
  .required blind_single (by simp) .nil

theorem MoveBy.orderless : Field.Orderless (MoveBy.schema : Schema Value MoveBy).fields :=
  .required blind_planar (by simp) (.required blind_single (by simp) .nil)

theorem FollowPath.orderless : Field.Orderless (FollowPath.schema : Schema Value FollowPath).fields :=
  .required blind_path (by simp) (.required blind_single (by simp)
    (.optional blind_planar (by simp) .nil))

theorem FollowBezier.orderless :
    Field.Orderless (FollowBezier.schema : Schema Value FollowBezier).fields :=
  .required blind_bezier (by simp) (.required blind_single (by simp)
    (.optional blind_planar (by simp) .nil))

theorem Jump.orderless : Field.Orderless (Jump.schema : Schema Value Jump).fields :=
  .required blind_single (by simp) .nil

theorem SingleShot.orderless : Field.Orderless (SingleShot.schema : Schema Value SingleShot).fields :=
  .optional blind_single (by simp) (.optional blind_aim (by simp) .nil)

theorem Barrage.orderless : Field.Orderless (Barrage.schema : Schema Value Barrage).fields :=
  .required blind_single (by simp) (.required blind_single (by simp)
    (.required blind_word32 (by simp) (.optional blind_single (by simp)
      (.optional blind_aim (by simp) .nil))))

theorem Attack.orderless : Field.Orderless (Attack.schema : Schema Value Attack).fields :=
  .optional blind_aim (by simp) (.optional blind_single (by simp) .nil)

theorem Lob.orderless : Field.Orderless (Lob.schema : Schema Value Lob).fields :=
  .optional blind_aim (by simp) (.optional blind_single (by simp)
    (.required blind_single (by simp) .nil))

theorem Walk.orderless : Field.Orderless (Walk.schema : Schema Value Walk).fields :=
  .required blind_single (by simp) .nil

namespace Node

/-! ### Kinds -/

/-- What names the kinds of nodes. -/
def kindNames : List String := Kind.all.map Kind.name

def kindAt (place : Fin kindNames.length) : Kind :=
  Kind.all.get ⟨place.val, by simpa [kindNames] using place.isLt⟩

/-- The names of the fields of a kind. -/
def fieldNames : Kind → List String
  | .wait => (Wait.schema : Schema Value Wait).names
  | .moveBy => (MoveBy.schema : Schema Value MoveBy).names
  | .followPath => (FollowPath.schema : Schema Value FollowPath).names
  | .followBezier => (FollowBezier.schema : Schema Value FollowBezier).names
  | .jump => (Jump.schema : Schema Value Jump).names
  | .singleShot => (SingleShot.schema : Schema Value SingleShot).names
  | .barrage => (Barrage.schema : Schema Value Barrage).names
  | .attack => (Attack.schema : Schema Value Attack).names
  | .lob => (Lob.schema : Schema Value Lob).names
  | .walk => (Walk.schema : Schema Value Walk).names
  | .sequence | .parallel => ["children"]
  | .repeating => ["child"]

variable {child child' : Value → Except DecodeError Node}

theorem childrenSchema_orderless (hchild : Blind child) (name : String) :
    Field.Orderless (childrenSchema child name).fields :=
  .optional hchild.list (by simp) .nil

theorem childSchema_orderless (hchild : Blind child) :
    Field.Orderless (childSchema child).fields :=
  .optional hchild.optional (by simp) .nil

/-- Every kind is a record of its fields. -/
theorem exists_schema (child : Value → Except DecodeError Node) (h : Header) (kind : Kind) :
    ∃ (α : Type) (r : Schema Value α) (build : α → Node), r.names = fieldNames kind ∧
      (Blind child → Field.Orderless r.fields) ∧
      ∀ map, ofKind child h map kind = build <$> r.readEntries map := by
  have hleaf {β : Type} (r : Schema Value β) (wrap : β → Leaf) (horderless : Field.Orderless r.fields)
      (hnames : r.names = fieldNames kind)
      (hkind : ∀ map, ofKind child h map kind = leaf h <$> wrap <$> r.readEntries map) :
      ∃ (α : Type) (r : Schema Value α) (build : α → Node), r.names = fieldNames kind ∧
        (Blind child → Field.Orderless r.fields) ∧
        ∀ map, ofKind child h map kind = build <$> r.readEntries map :=
    ⟨β, r, fun b => leaf h (wrap b), hnames, fun _ => horderless,
      fun map => by rw [hkind, Functor.map_map]⟩
  cases kind with
  | wait => exact hleaf Wait.schema .wait Wait.orderless rfl fun _ => rfl
  | moveBy => exact hleaf MoveBy.schema .moveBy MoveBy.orderless rfl fun _ => rfl
  | followPath => exact hleaf FollowPath.schema .followPath FollowPath.orderless rfl fun _ => rfl
  | followBezier =>
      exact hleaf FollowBezier.schema .followBezier FollowBezier.orderless rfl fun _ => rfl
  | jump => exact hleaf Jump.schema .jump Jump.orderless rfl fun _ => rfl
  | singleShot => exact hleaf SingleShot.schema .singleShot SingleShot.orderless rfl fun _ => rfl
  | barrage => exact hleaf Barrage.schema .barrage Barrage.orderless rfl fun _ => rfl
  | attack => exact hleaf Attack.schema .attack Attack.orderless rfl fun _ => rfl
  | lob => exact hleaf Lob.schema .lob Lob.orderless rfl fun _ => rfl
  | walk => exact hleaf Walk.schema .walk Walk.orderless rfl fun _ => rfl
  | sequence => exact ⟨_, childrenSchema child "Sequence", _, rfl,
      fun hchild => childrenSchema_orderless hchild _, fun _ => rfl⟩
  | parallel => exact ⟨_, childrenSchema child "Parallel", _, rfl,
      fun hchild => childrenSchema_orderless hchild _, fun _ => rfl⟩
  | repeating => exact ⟨_, childSchema child, _, rfl, childSchema_orderless, fun _ => rfl⟩

section Kinds

variable (h : Header) (kind : Kind)

theorem ofKind_perm (hchild : Blind child) {before after : List (Key × Value)}
    (hperm : before.Perm after) :
    Concur (ofKind child h ⟨before, .ok ()⟩ kind) (ofKind child h ⟨after, .ok ()⟩ kind) := by
  obtain ⟨_, r, build, _, horderless, hkind⟩ := exists_schema child h kind
  rw [hkind, hkind]
  exact (Schema.readEntries_perm (horderless hchild) hperm).map build

theorem ofKind_entry (hchild : Blind child) {v w : Value} (hvw : v.Reordered w) (key : Key)
    (left right : List (Key × Value)) :
    Concur (ofKind child h ⟨left ++ (key, v) :: right, .ok ()⟩ kind)
      (ofKind child h ⟨left ++ (key, w) :: right, .ok ()⟩ kind) := by
  obtain ⟨_, r, build, _, horderless, hkind⟩ := exists_schema child h kind
  rw [hkind, hkind]
  exact (Schema.readEntries_entry (horderless hchild) hvw left key right).map build

theorem ofKind_pass {name : String} (hname : name ∉ fieldNames kind) (v : Value)
    (left right : List (Key × Value)) :
    ofKind child h ⟨left ++ (.text name, v) :: right, .ok ()⟩ kind =
      ofKind child h ⟨left ++ right, .ok ()⟩ kind := by
  obtain ⟨_, r, build, hnames, _, hkind⟩ := exists_schema child h kind
  rw [hkind, hkind, Schema.readEntries_pass (hnames ▸ hname)]

end Kinds

/-! ### Nodes in maps -/

/-- The names that every node has. -/
def headNames : List String := ["label", "enabled", "kind"]

theorem add_pass {g : Gathered} {key : Key} {v : Value} (hkey : key ≠ .unreadable)
    (hother : ∀ name ∈ ["label", "enabled"], key ≠ .text name) :
    g.add (key, v) = .ok { g with others := g.others ++ [(key, v)] } := by
  rw [Gathered.add]
  split
  · next h => exact absurd h (hother "label" (by simp))
  · next h => exact absurd h (hother "enabled" (by simp))
  · next h => exact absurd h hkey
  · rfl

theorem add_label_eq_ok {g next : Gathered} {v : Value} :
    g.add (.text "label", v) = .ok next ↔ g.label = none ∧ ∃ label,
      Source.optional Source.text v = .ok label ∧ { g with label := some label } = next := by
  cases hlabel : g.label <;> simp [Gathered.add, hlabel, bind_eq_ok_iff]

theorem add_enabled_eq_ok {g next : Gathered} {v : Value} :
    g.add (.text "enabled", v) = .ok next ↔ g.enabled = none ∧ ∃ enabled,
      Source.flag v = .ok enabled ∧ { g with enabled := some enabled } = next := by
  cases henabled : g.enabled <;> simp [Gathered.add, henabled, bind_eq_ok_iff]

/-- The label and the switch stand under their names, and what is left under the others. -/
@[mk_iff]
structure Gathers (entries : List (Key × Value)) (g : Gathered) : Prop where
  readable : Readable entries
  label : Sole (Source.optional Source.text) (under "label" entries) g.label
  enabled : Sole Source.flag (under "enabled" entries) g.enabled
  others : without ["label", "enabled"] entries = g.others

section Gathers

variable {entries : List (Key × Value)} {g next : Gathered} {key : Key} {v : Value}

theorem gathers_nil : Gathers [] g ↔ g = {} := by
  constructor
  · obtain ⟨label, enabled, others⟩ := g
    rintro ⟨_, hlabel, henabled, hothers⟩
    obtain rfl : label = none := Sole.nil_iff.mp hlabel
    obtain rfl : enabled = none := Sole.nil_iff.mp henabled
    obtain rfl : [] = others := hothers
    rfl
  · rintro rfl
    exact ⟨fun _ he => absurd he List.not_mem_nil, .absent, .absent, rfl⟩

theorem gathers_concat_label :
    Gathers (entries ++ [(.text "label", v)]) next ↔
      ∃ g, Gathers entries g ∧ g.add (.text "label", v) = .ok next := by
  simp only [gathers_iff, readable_concat, under_append, without_append, add_label_eq_ok]
  rw [under_cons_self, under_cons_of_ne (by simp), without_cons_of_mem (by simp)]
  simp only [under_nil, without_nil, List.append_nil, Sole.concat_iff]
  constructor
  · rintro ⟨⟨hreadable, _⟩, ⟨hnone, label, hread, hnext⟩, henabled, hothers⟩
    exact ⟨{ next with label := none }, ⟨hreadable, Sole.none_iff.mpr hnone, henabled, hothers⟩, rfl,
      label, hread, by rw [← hnext]⟩
  · rintro ⟨g, ⟨hreadable, hlabel, henabled, hothers⟩, hnone, label, hread, rfl⟩
    rw [hnone, Sole.none_iff] at hlabel
    exact ⟨⟨hreadable, by simp⟩, ⟨hlabel, label, hread, rfl⟩, henabled, hothers⟩

theorem gathers_concat_enabled :
    Gathers (entries ++ [(.text "enabled", v)]) next ↔
      ∃ g, Gathers entries g ∧ g.add (.text "enabled", v) = .ok next := by
  simp only [gathers_iff, readable_concat, under_append, without_append, add_enabled_eq_ok]
  rw [under_cons_self, under_cons_of_ne (by simp), without_cons_of_mem (by simp)]
  simp only [under_nil, without_nil, List.append_nil, Sole.concat_iff]
  constructor
  · rintro ⟨⟨hreadable, _⟩, hlabel, ⟨hnone, enabled, hread, hnext⟩, hothers⟩
    exact ⟨{ next with enabled := none }, ⟨hreadable, hlabel, Sole.none_iff.mpr hnone, hothers⟩, rfl,
      enabled, hread, by rw [← hnext]⟩
  · rintro ⟨g, ⟨hreadable, hlabel, henabled, hothers⟩, hnone, enabled, hread, rfl⟩
    rw [hnone, Sole.none_iff] at henabled
    exact ⟨⟨hreadable, by simp⟩, hlabel, ⟨henabled, enabled, hread, rfl⟩, hothers⟩

theorem gathers_concat_other (hkey : key ≠ .unreadable)
    (hother : ∀ name ∈ ["label", "enabled"], key ≠ .text name) :
    Gathers (entries ++ [(key, v)]) next ↔
      ∃ g, Gathers entries g ∧ g.add (key, v) = .ok next := by
  simp only [gathers_iff, readable_concat, under_append, without_append, add_pass hkey hother]
  rw [under_cons_of_ne (hother "label" (by simp)), under_cons_of_ne (hother "enabled" (by simp)),
    without_cons_of_ne hother]
  simp only [under_nil, without_nil, List.append_nil]
  constructor
  · rintro ⟨⟨hreadable, _⟩, hlabel, henabled, hothers⟩
    exact ⟨{ next with others := without ["label", "enabled"] entries },
      ⟨hreadable, hlabel, henabled, rfl⟩, by rw [hothers]⟩
  · rintro ⟨g, ⟨hreadable, hlabel, henabled, hothers⟩, hadd⟩
    obtain rfl := Except.ok.inj hadd
    exact ⟨⟨hreadable, hkey⟩, hlabel, henabled, by rw [hothers]⟩

/-- What one more entry adds to what has been gathered. -/
theorem gathers_concat :
    Gathers (entries ++ [(key, v)]) next ↔
      ∃ g, Gathers entries g ∧ g.add (key, v) = .ok next := by
  by_cases hlabel : key = .text "label"
  · exact hlabel ▸ gathers_concat_label
  by_cases henabled : key = .text "enabled"
  · exact henabled ▸ gathers_concat_enabled
  by_cases hkey : key = .unreadable
  · subst hkey
    constructor
    · exact fun h => absurd rfl (readable_concat.mp h.readable).2
    · rintro ⟨g, _, ⟨⟩⟩
  · exact gathers_concat_other hkey (by simp [hlabel, henabled])

theorem foldlM_add_eq_ok : entries.foldlM Gathered.add {} = .ok g ↔ Gathers entries g := by
  induction entries using List.reverseRecOn generalizing g with
  | nil => simp [gathers_nil, eq_comm]
  | append_singleton entries e ih =>
      simp only [List.foldlM_append, List.foldlM_cons, List.foldlM_nil, bind_pure, bind_eq_ok_iff, ih]
      exact gathers_concat.symm

end Gathers

/-- A node in a map: its label, its switch and its kind stand under their names, and the fields of its
kind under the others. -/
theorem read_record_eq_ok {entries : List (Key × Value)} {n : Node} :
    read child (Value.record entries) = .ok n ↔
      ∃ label enabled place, Readable entries ∧
        Sole (Source.optional Source.text) (under "label" entries) label ∧
        Sole Source.flag (under "enabled" entries) enabled ∧
        Sole (Source.placeOf kindNames) (under "kind" entries) (some place) ∧
        ofKind child { label := label.getD none, enabled := enabled.getD true }
          ⟨without headNames entries, .ok ()⟩ (kindAt place) = .ok n := by
  have hread : read child (Value.record entries) = entries.foldlM Gathered.add {} >>= fun g =>
      Source.splitTag "kind" kindNames g.others >>= fun split =>
        match split.1 with
        | none => throw (.missingField "kind")
        | some place => ofKind child g.header ⟨split.2, .ok ()⟩ (kindAt place) := rfl
  have hothers : without ["kind"] (without ["label", "enabled"] entries) =
      without headNames entries := by
    rw [without_without]
    rfl
  have hkind : under "kind" (without ["label", "enabled"] entries) = under "kind" entries :=
    under_without (by simp)
  have hreadable : Readable entries → Readable (without ["label", "enabled"] entries) :=
    fun h e he => h e (List.mem_of_mem_filter he)
  simp only [hread, bind_eq_ok_iff, foldlM_add_eq_ok]
  constructor
  · rintro ⟨g, hg, ⟨_ | place, rest⟩, hsplit, hn⟩
    · cases hn
    · obtain ⟨_, hplace, rfl⟩ := Source.splitTag_eq_ok.mp hsplit
      rw [← hg.others, hkind] at hplace
      rw [← hg.others, hothers] at hn
      exact ⟨g.label, g.enabled, place, hg.readable, hg.label, hg.enabled, hplace, hn⟩
  · rintro ⟨label, enabled, place, hentries, hlabel, henabled, hplace, hn⟩
    rw [← hkind] at hplace
    rw [← hothers] at hn
    exact ⟨⟨label, enabled, _⟩, ⟨hentries, hlabel, henabled, rfl⟩, (some place, _),
      Source.splitTag_eq_ok.mpr ⟨hreadable hentries, hplace, rfl⟩, hn⟩

theorem read_perm (hchild : Blind child) {before after : List (Key × Value)}
    (hperm : before.Perm after) :
    Concur (read child (Value.record before)) (read child (Value.record after)) := by
  refine Concur.iff.mpr fun n => ?_
  simp only [read_record_eq_ok, Readable.perm hperm, Sole.perm (under_perm hperm),
    Concur.iff.mp (ofKind_perm _ _ hchild (without_perm hperm))]

/-- An entry may hold something else of the same form, if the fields of the kind are read alike. -/
theorem read_replace {v w : Value} (hvw : v.Kindred w) {key : Key}
    (hfields : ∀ h kind left right, Concur
      (ofKind child h ⟨left ++ (key, v) :: right, .ok ()⟩ kind)
      (ofKind child h ⟨left ++ (key, w) :: right, .ok ()⟩ kind))
    (left right : List (Key × Value)) :
    Concur (read child (Value.record (left ++ (key, v) :: right)))
      (read child (Value.record (left ++ (key, w) :: right))) := by
  have hplace : Concur (Source.placeOf kindNames v) (Source.placeOf kindNames w) :=
    hvw.name.bind fun _ => Concur.refl _
  have hothers (h : Header) (kind : Kind) :
      Concur (ofKind child h ⟨without headNames (left ++ (key, v) :: right), .ok ()⟩ kind)
        (ofKind child h ⟨without headNames (left ++ (key, w) :: right), .ok ()⟩ kind) :=
    concur_without _ (fun entries => ofKind child h ⟨entries, .ok ()⟩ kind) (hfields h kind)
  refine Concur.iff.mpr fun n => ?_
  rw [read_record_eq_ok, read_record_eq_ok, @Readable.replace left right key v w]
  simp only [Sole.replace_entry (hvw.optional hvw.text), Sole.replace_entry hvw.flag,
    Sole.replace_entry hplace, Concur.iff.mp (hothers _ _)]

theorem blind_read (hchild : Blind child) : Blind (read child) := by
  intro v w h
  cases h with
  | entries hperm => exact read_perm hchild hperm
  | item => exact .error _ _
  | entry left key right hvw =>
      exact read_replace hvw.kindred
        (fun h kind left right => ofKind_entry h kind hchild hvw key left right) left right

/-! ### Keys that no node has -/

/-- A key is added to a node in a tree, which is none of its fields: neither one of those that every
node has, nor one of the fields of its kind. -/
inductive Widened : Value → Value → Prop
  | key {left right : List (Key × Value)} {name : String} (v : Value) (hhead : name ∉ headNames)
      (hbody : ∀ u ∈ under "kind" (left ++ right), ∀ place, Source.placeOf kindNames u = .ok place →
        name ∉ fieldNames (kindAt place)) :
      Widened (.record (left ++ right)) (.record (left ++ (.text name, v) :: right))
  | child (left right : List (Key × Value)) {v w : Value} (h : Widened v w) :
      Widened (.record (left ++ (.text "child", v) :: right))
        (.record (left ++ (.text "child", w) :: right))
  | children (left right : List (Key × Value)) (before after : List Value) {v w : Value}
      (h : Widened v w) :
      Widened (.record (left ++ (.text "children", .list (before ++ v :: after)) :: right))
        (.record (left ++ (.text "children", .list (before ++ w :: after)) :: right))

theorem Widened.kindred {v w : Value} (h : Widened v w) : v.Kindred w := by
  cases h <;> exact .records _ _

theorem read_key {left right : List (Key × Value)} {name : String} {v : Value}
    (hhead : name ∉ headNames)
    (hbody : ∀ u ∈ under "kind" (left ++ right), ∀ place, Source.placeOf kindNames u = .ok place →
      name ∉ fieldNames (kindAt place)) :
    Concur (read child (Value.record (left ++ right)))
      (read child (Value.record (left ++ (.text name, v) :: right))) := by
  have hunder : ∀ known ∈ headNames,
      under known (left ++ (.text name, v) :: right) = under known (left ++ right) := by
    intro known hknown
    have hne : Key.text name ≠ .text known := fun heq => hhead (Key.text.inj heq ▸ hknown)
    rw [under_append, under_cons_of_ne hne, under_append]
  have hreadable : Readable (left ++ (.text name, v) :: right) ↔ Readable (left ++ right) := by
    simp [Readable, or_imp, forall_and]
  have hothers : without headNames (left ++ (.text name, v) :: right) =
      without headNames left ++ (.text name, v) :: without headNames right := by
    rw [without_append, without_cons_of_ne]
    exact fun known hknown heq => hhead (Key.text.inj heq ▸ hknown)
  refine Concur.iff.mpr fun n => ?_
  rw [read_record_eq_ok, read_record_eq_ok, hreadable, hunder "label" (by decide),
    hunder "enabled" (by decide), hunder "kind" (by decide), hothers, without_append]
  refine exists_congr fun label => exists_congr fun enabled => exists_congr fun place => ?_
  refine and_congr_right fun _ => and_congr_right fun _ => and_congr_right fun _ =>
    and_congr_right fun hkind => ?_
  obtain ⟨u, hu, hplace⟩ := hkind.exists_mem
  rw [ofKind_pass _ _ (hbody u hu place hplace)]

section Below

variable {v w : Value} (h : Header) (kind : Kind) (left right : List (Key × Value))

theorem ofKind_child (hvw : v.Kindred w) (hchild : Concur (child v) (child w)) :
    Concur (ofKind child h ⟨left ++ (.text "child", v) :: right, .ok ()⟩ kind)
      (ofKind child h ⟨left ++ (.text "child", w) :: right, .ok ()⟩ kind) := by
  by_cases hname : "child" ∈ fieldNames kind
  · obtain rfl : kind = .repeating := by
      revert hname
      cases kind <;> decide
    refine (Schema.readEntries_replace (fun f hf a => ?_) left right).map _
    obtain rfl : Field.optional "child" (Source.optional child) (fun v _ => v) = f := by
      simpa [Schema.field?, childSchema, Field.optional] using hf
    exact (hvw.optional hchild).map _
  · rw [ofKind_pass _ _ hname, ofKind_pass _ _ hname]
    exact Concur.refl _

theorem ofKind_children (before after : List Value) (hchild : Concur (child v) (child w)) :
    Concur
      (ofKind child h ⟨left ++ (.text "children", .list (before ++ v :: after)) :: right, .ok ()⟩ kind)
      (ofKind child h
        ⟨left ++ (.text "children", .list (before ++ w :: after)) :: right, .ok ()⟩ kind) := by
  by_cases hname : "children" ∈ fieldNames kind
  · have hfield (name : String) (f : Field Value (List Node))
        (hf : (childrenSchema child name).field? (.text "children") = .ok (some f))
        (a : List Node) :
        Concur (f.read (.list (before ++ v :: after)) a) (f.read (.list (before ++ w :: after)) a) := by
      obtain rfl : Field.optional "children" (Source.list child) (fun v _ => v) = f := by
        simpa [Schema.field?, childrenSchema, Field.optional] using hf
      exact (concur_list_replace hchild before after).map _
    obtain rfl | rfl : kind = .sequence ∨ kind = .parallel := by
      revert hname
      cases kind <;> decide
    · exact (Schema.readEntries_replace (hfield "Sequence") left right).map _
    · exact (Schema.readEntries_replace (hfield "Parallel") left right).map _
  · rw [ofKind_pass _ _ hname, ofKind_pass _ _ hname]
    exact Concur.refl _

end Below

theorem Widened.concur_read {v w : Value} (h : Widened v w)
    (hchild : ∀ v w, Widened v w → Concur (child v) (child w)) :
    Concur (read child v) (read child w) := by
  cases h with
  | key v hhead hbody => exact read_key hhead hbody
  | child left right hvw =>
      exact read_replace hvw.kindred (fun h kind left right =>
        ofKind_child h kind left right hvw.kindred (hchild _ _ hvw)) left right
  | children left right before after hvw =>
      exact read_replace (.lists _ _) (fun h kind left right =>
        ofKind_children h kind left right before after (hchild _ _ hvw)) left right

/-! ### How deep a reading goes -/

/-- A record of one field depends on how the field is read from the values that are there. -/
theorem readEntries_congr {α β : Type} {title name : String}
    {read read' : Value → Except DecodeError β} {store : β → α → α} {blank : α}
    {entries : List (Key × Value)} (h : ∀ e ∈ entries, Concur (read e.2) (read' e.2)) :
    Concur (Schema.readEntries ⟨title, [.optional name read store], blank⟩ ⟨entries, .ok ()⟩)
      (Schema.readEntries ⟨title, [.optional name read' store], blank⟩ ⟨entries, .ok ()⟩) := by
  have hfield (e : Key × Value) (he : e ∈ entries) :
      ConcurUpTo (Option.Rel (Schema.SameField e.2 e.2))
        (Schema.field? ⟨title, [.optional name read store], blank⟩ e.1)
        (Schema.field? ⟨title, [.optional name read' store], blank⟩ e.1) := by
    have hsame : Schema.SameField e.2 e.2 (.optional name read store) (.optional name read' store) :=
      ⟨rfl, fun _ => (h e he).map _⟩
    obtain ⟨other | place | _, v⟩ := e
    · by_cases hname : name = other
      · simpa [Schema.field?, Field.optional, hname] using ConcurUpTo.ok (Option.Rel.some hsame)
      · simpa [Schema.field?, Field.optional, hname] using ConcurUpTo.ok Option.Rel.none
    · cases place with
      | zero => exact .ok (.some hsame)
      | succ => exact .ok .none
    · exact .error _ _
  refine (Concur.foldlM_congr ?_ _).bind fun _ => Concur.refl _
  exact fun e he => Schema.readEntry_alike (hfield e he)

theorem ofKind_congr {entries : List (Key × Value)}
    (hchild : ∀ e ∈ entries, ∀ u : Value, u.depth ≤ e.2.depth → Concur (child u) (child' u))
    (h : Header) (kind : Kind) :
    Concur (ofKind child h ⟨entries, .ok ()⟩ kind) (ofKind child' h ⟨entries, .ok ()⟩ kind) := by
  have hlist : ∀ e ∈ entries, Concur (Source.list child e.2) (Source.list child' e.2) := by
    rintro ⟨key, v⟩ he
    cases v with
    | list items =>
        refine (Concur.mapM_congr fun u hu => ?_).bind fun _ => Concur.refl _
        exact hchild _ he u (depth_lt_list hu).le
    | _ => exact Concur.refl _
  have hoptional : ∀ e ∈ entries, Concur (Source.optional child e.2) (Source.optional child' e.2) := by
    rintro ⟨key, v⟩ he
    cases v with
    | null => exact Concur.refl _
    | _ => exact (hchild _ he _ le_rfl).map some
  cases kind with
  | sequence | parallel => exact (readEntries_congr hlist).map _
  | repeating => exact (readEntries_congr hoptional).map _
  | _ => exact Concur.refl _

/-- Only what is inside a node is read as a node below it. -/
theorem read_congr {v : Value}
    (hchild : ∀ u : Value, u.depth < v.depth → Concur (child u) (child' u)) :
    Concur (read child v) (read child' v) := by
  cases v with
  | record entries =>
      have hinside (h : Header) (kind : Kind) :
          Concur (ofKind child h ⟨without headNames entries, .ok ()⟩ kind)
            (ofKind child' h ⟨without headNames entries, .ok ()⟩ kind) := by
        refine ofKind_congr (fun e he u hu => hchild u ?_) h kind
        exact hu.trans_lt (depth_lt_record (List.mem_of_mem_filter he))
      refine Concur.iff.mpr fun n => ?_
      simp only [read_record_eq_ok, Concur.iff.mp (hinside _ _)]
  | _ => exact .error _ _

/-- Any number of levels is as good as another, if it is enough. -/
theorem concur_depths {v : Value} {depth depth' : Nat} (h : v.depth ≤ depth) (h' : v.depth ≤ depth') :
    Concur (ofValue depth v) (ofValue depth' v) := by
  induction depth generalizing v depth' with
  | zero =>
      cases depth' <;> exact read_congr fun u hu => absurd hu (by omega)
  | succ depth ih =>
      cases depth' with
      | zero => exact read_congr fun u hu => absurd hu (by omega)
      | succ depth' => exact read_congr fun u hu => ih (by omega) (by omega)

theorem concur_decode {v : Value} {depth : Nat} (h : v.depth ≤ depth) :
    Concur (decode v) (ofValue depth v) := by
  cases depth with
  | zero => exact read_congr fun u hu => absurd hu (by omega)
  | succ depth => exact read_congr fun u hu => concur_depths le_rfl (by omega)

theorem blind_ofValue (depth : Nat) : Blind (ofValue depth) := by
  induction depth with
  | zero => exact blind_read fun _ _ _ => .error _ _
  | succ depth ih => exact blind_read ih

theorem Widened.concur_ofValue {v w : Value} (h : Widened v w) (depth : Nat) :
    Concur (ofValue depth v) (ofValue depth w) := by
  induction depth generalizing v w with
  | zero => exact h.concur_read fun _ _ _ => .error _ _
  | succ depth ih => exact h.concur_read fun _ _ => ih

theorem blind_decode : Blind (decode : Value → Except DecodeError Node) := by
  intro v w h
  have hv := concur_decode (le_max_left v.depth w.depth)
  have hw := concur_decode (le_max_right v.depth w.depth)
  exact (hv.trans (blind_ofValue _ h)).trans hw.symm

theorem Widened.concur_decode {v w : Value} (h : Widened v w) :
    Concur (decode v : Except DecodeError Node) (decode w) := by
  have hv := Node.concur_decode (le_max_left v.depth w.depth)
  have hw := Node.concur_decode (le_max_right v.depth w.depth)
  exact (hv.trans (h.concur_ofValue _)).trans hw.symm

end Node

end Choreo
