import Choreo.Proofs.Data.Concurrence
import Choreo.Proofs.Json.Reading
import Choreo.Schema.Scripts

/-!
# JSON that is read later

A script is read from JSON as its text goes by, while the entries of a node wait as plain values for
the kind of the node. Were the whole tree kept as a plain value first, the same scripts would come of
it: every part of a tree is read at one time or another, so one that cannot be kept is no script.
-/

namespace Choreo.Json

variable {α β : Type}

/-- Reading a tree at once concurs with keeping it and reading what is kept. -/
def Deferrable (read : Json → Except DecodeError α) (later : Value → Except DecodeError α) : Prop :=
  ∀ j, Concur (read j) (j.toValue >>= later)

variable {read : Json → Except DecodeError α} {later : Value → Except DecodeError α}

theorem Deferrable.map (h : Deferrable read later) (f : α → β) :
    Deferrable (fun j => f <$> read j) fun v => f <$> later v := by
  intro j
  simpa only [map_bind] using (h j).map f

theorem deferrable_error (e : DecodeError) :
    Deferrable (fun _ => (.error e : Except DecodeError α)) fun _ => .error e := by
  intro j
  cases j.toValue <;> exact .error _ _

theorem deferrable_flag : Deferrable Source.flag Source.flag := by
  intro j
  refine Concur.iff.mpr fun b => ?_
  rw [bind_eq_ok_iff]
  cases j with
  | list | record => simp [Source.flag, refuse, found]
  | _ => simp [Source.flag, refuse, toValue, found, Value.ofInt]

theorem deferrable_text : Deferrable Source.text Source.text := by
  intro j
  refine Concur.iff.mpr fun b => ?_
  rw [bind_eq_ok_iff]
  cases j with
  | list | record => simp [Source.text, refuse, found]
  | _ => simp [Source.text, refuse, toValue, found, Value.ofInt]

theorem toValue_ne_null {j : Json} (h : j ≠ null) : j.toValue ≠ .ok .null := by
  cases j with
  | null => exact absurd rfl h
  | list | record => simp
  | _ => simp [toValue, Value.ofInt]

theorem Deferrable.optional (h : Deferrable read later) :
    Deferrable (Source.optional read) (Source.optional later) := by
  intro j
  by_cases hnull : j = .null
  · subst hnull
    exact Concur.refl _
  · have hread : Source.optional read j = some <$> read j := by
      cases j <;> first | exact absurd rfl hnull | rfl
    have hlater : (j.toValue >>= Source.optional later) =
        j.toValue >>= fun v => some <$> later v := by
      cases hv : j.toValue with
      | error e => rfl
      | ok v =>
          cases v with
          | null => exact absurd hv (toValue_ne_null hnull)
          | _ => rfl
    rw [hread, hlater]
    exact h.map some j

/-- A list cannot be read later, if it cannot be read when it is kept. -/
theorem concur_list_error (e : DecodeError) {items : List Json} (closed : Bool)
    (h : ∀ values, itemsToValues items = .ok values → ∃ e, later (.list values) = .error e) :
    Concur (.error e) ((list items closed).toValue >>= later) := by
  cases hv : (list items closed).toValue with
  | error e' => exact .error e e'
  | ok v =>
      obtain ⟨_, values, hvalues, rfl⟩ := toValue_list_eq_ok.mp hv
      obtain ⟨e', he'⟩ := h values hvalues
      rw [ok_bind, he']
      exact .error e e'

/-- A map cannot be read later, if it cannot be read when it is kept. -/
theorem concur_record_error (e : DecodeError) {entries : List (Option String × Json)} (closed : Bool)
    (h : ∀ values, entriesToValues entries = .ok values → ∃ e, later (.record values) = .error e) :
    Concur (.error e) ((record entries closed).toValue >>= later) := by
  cases hv : (record entries closed).toValue with
  | error e' => exact .error e e'
  | ok v =>
      obtain ⟨_, values, hvalues, rfl⟩ := toValue_record_eq_ok.mp hv
      obtain ⟨e', he'⟩ := h values hvalues
      rw [ok_bind, he']
      exact .error e e'

/-- A list or a map may be found to be closed before its parts are read. -/
theorem concur_closing {ρ γ : Type} {x : Except DecodeError α} {kept : Except DecodeError ρ}
    {later : ρ → Except DecodeError α} (h : Concur x (kept >>= later)) (closed : Bool)
    (next : α → Except DecodeError γ) :
    Concur (x >>= fun a => closing closed >>= fun _ => next a)
      (kept >>= fun r => closing closed >>= fun _ => later r >>= next) := by
  cases closed with
  | true => exact (h.bind fun a => Concur.refl (next a)).trans (.of_eq (bind_assoc _ _ _))
  | false => cases x <;> cases kept <;> exact .error _ _

theorem Deferrable.mapM (h : Deferrable read later) (items : List Json) :
    Concur (items.mapM read) (itemsToValues items >>= fun values => values.mapM later) := by
  induction items with
  | nil => exact Concur.refl _
  | cons j items ih =>
      rw [List.mapM_cons, itemsToValues]
      simp only [bind_assoc, pure_bind, List.mapM_cons]
      have hfirst := (h j).bind fun a => ih.bind fun rest => Concur.refl (pure (a :: rest))
      refine hfirst.trans ?_
      simp only [bind_assoc]
      exact (Concur.refl _).bind fun v => Concur.swap _ _ _

theorem Deferrable.list (h : Deferrable read later) :
    Deferrable (Source.list read) (Source.list later) := by
  intro j
  cases j with
  | list items closed =>
      have hlater : ((Json.list items closed).toValue >>= Source.list later) =
          itemsToValues items >>= fun values => closing closed >>= fun _ =>
            values.mapM later >>= pure := by
        simp only [toValue, bind_assoc, pure_bind]
        rfl
      rw [hlater]
      exact concur_closing (h.mapM items) closed pure
  | record entries closed => exact concur_record_error _ closed fun _ _ => ⟨_, rfl⟩
  | _ => exact .error _ _

/-! ### Nodes -/

theorem length_of_entriesToValues {entries : List (Option String × Json)}
    {values : List (Key × Value)} (h : entriesToValues entries = .ok values) :
    values.length = entries.length := by
  induction entries generalizing values with
  | nil =>
      obtain rfl := Except.ok.inj h
      rfl
  | cons e entries ih =>
      obtain ⟨_ | name, j⟩ := e
      · cases h
      · obtain ⟨v, _, h⟩ := bind_eq_ok h
        obtain ⟨rest, hrest, h⟩ := bind_eq_ok h
        rw [← Except.ok.inj h, List.length_cons, List.length_cons, ih hrest]

theorem deferrable_add (g : Node.Gathered) (name : String) :
    Deferrable (fun j => g.add (.text name, j)) fun v => g.add (.text name, v) := by
  obtain ⟨label, enabled, others⟩ := g
  by_cases hlabel : name = "label"
  · subst hlabel
    cases label with
    | none =>
        exact deferrable_text.optional.map fun label => Node.Gathered.mk (some label) enabled others
    | some _ => exact deferrable_error _
  by_cases henabled : name = "enabled"
  · subst henabled
    cases enabled with
    | none => exact deferrable_flag.map fun enabled => Node.Gathered.mk label (some enabled) others
    | some _ => exact deferrable_error _
  · intro j
    have hadd {σ : Type} [Source σ] (s : σ) :
        Node.Gathered.add ⟨label, enabled, others⟩ (.text name, s) =
          Source.buffer s >>= fun v => pure ⟨label, enabled, others ++ [(.text name, v)]⟩ := by
      simp [Node.Gathered.add, hlabel, henabled]
    simp only [hadd]
    exact Concur.refl _

/-- The entries of a tree with their keys, as a node is gathered from them. -/
theorem foldlM_add_deferred (entries : List (Option String × Json)) (g : Node.Gathered) :
    Concur ((entries.map fun e => (key e.1, e.2)).foldlM Node.Gathered.add g)
      (entriesToValues entries >>= fun values => values.foldlM Node.Gathered.add g) := by
  induction entries generalizing g with
  | nil => exact Concur.refl _
  | cons e entries ih =>
      obtain ⟨_ | name, j⟩ := e
      · exact .error _ _
      rw [List.map_cons, List.foldlM_cons, entriesToValues]
      simp only [bind_assoc, pure_bind, List.foldlM_cons]
      have hfirst := (deferrable_add g name j).bind fun next => ih next
      refine hfirst.trans ?_
      rw [bind_assoc]
      exact (Concur.refl _).bind fun v => Concur.swap _ _ _

theorem deferrable_node (child : Value → Except DecodeError Node) :
    Deferrable (Node.read child) (Node.read child) := by
  intro j
  cases j with
  | record entries closed =>
      have hlater : ((Json.record entries closed).toValue >>= Node.read child) =
          entriesToValues entries >>= fun values => closing closed >>= fun _ =>
            Node.read child (Value.record values) := by
        simp only [toValue, bind_assoc, pure_bind]
      rw [hlater]
      exact concur_closing (foldlM_add_deferred entries {}) closed _
  | list items closed => exact concur_list_error _ closed fun _ _ => ⟨_, rfl⟩
  | _ => exact .error _ _

end Choreo.Json
