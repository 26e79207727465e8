import Choreo.Json.Printing
import Choreo.Loading
import Choreo.Proofs.Json.Reading
import Choreo.Proofs.Schema.Scripts
import Choreo.Proofs.Yaml.Reading
import Choreo.Yaml.Printing

/-!
# Reading undoes writing

A script that is written and read again is the script it was before any run. In both notations all
of it is kept, the labels that are absent and those that are empty among it, but what JSON has no text
for: a quantity that is not finite.
-/

namespace Choreo

namespace Script

/-- A tree that holds what is written of a script in JSON gives the script back. -/
theorem decode_json (script : Script) (hfinite : ∀ x ∈ (encode script).singles, x.isFinite = true)
    {j : Json} (hj : j.content? = some (Json.written (encode script))) :
    decode j = .ok script.pristine := by
  obtain ⟨w, hw, hnarrowed⟩ := Json.toValue_of_content hj
  rw [Json.written_of_finite _ hfinite] at hnarrowed
  exact script.decode_ok Json.faithful hnarrowed hw

/-- A tree that holds what is written of a script in YAML gives the script back. -/
theorem decode_yaml (script : Script) {t : Yaml.Tree} (ht : t.content? = some (encode script)) :
    decode t = .ok script.pristine := by
  obtain ⟨w, hw, hnarrowed⟩ := Yaml.Tree.keeps_of_content ht
  exact script.decode_ok Yaml.Tree.faithful hnarrowed hw

/-- A JSON text that holds what is written of a script, and nothing behind it, loads as the script. -/
theorem ofJson_ok (script : Script) (hfinite : ∀ x ∈ (encode script).singles, x.isFinite = true)
    {text : String} (hcomplete : (Json.ofText text).complete = true)
    (hroot : (Json.ofText text).root.content? = some (Json.written (encode script))) :
    ofJson text = .ok script.pristine := by
  have hread : Json.read text = .ok script.pristine := by
    simp [Json.read, script.decode_json hfinite hroot, hcomplete]
  rw [ofJson, hread]
  rfl

end Script

/-- **Reading undoes writing.** A script that has not been run is given back by what is written of it,
and by whatever holds that: in JSON if all its quantities are finite, and in YAML whatever they are. -/
theorem reading_undoes_writing (script : Script) (hpristine : script.pristine = script) :
    decode (encode script) = .ok script ∧
    ((∀ x ∈ (encode script).singles, x.isFinite = true) →
      decode (Json.written (encode script)) = .ok script ∧
      ∀ j : Json, j.content? = some (Json.written (encode script)) → decode j = .ok script) ∧
    ∀ t : Yaml.Tree, t.content? = some (encode script) → decode t = .ok script := by
  have hvalue : decode (encode script) = .ok script := by
    rw [script.decode_ok Value.faithful script.isNarrow rfl, hpristine]
  refine ⟨hvalue, fun hfinite => ⟨?_, fun j hj => ?_⟩, fun t ht => ?_⟩
  · rw [Json.written_of_finite _ hfinite, hvalue]
  · rw [script.decode_json hfinite hj, hpristine]
  · rw [script.decode_yaml ht, hpristine]

/-- A throw that is repeated, from what is written of it in JSON, and a wait without end, from what is
written of it in YAML. -/
theorem reading_undoes_writing_endless :
    let toss : Node := .leaf { label := some "" } (.lob { angle := -0.0, speed := 0.1 })
    let tosses : Script := .tree (.repeating { enabled := false } (some toss) false)
    let endless : Script := .flat [.leaf {} (.wait { duration := 1 / 0 })]
    decode (Json.ofText (Json.render (encode tosses))).root = .ok tosses ∧
      ∃ t, Yaml.Tree.ofText? (Yaml.render (encode endless)) = some t ∧ decode t = .ok endless := by
  intro toss tosses endless
  have hfinite : ∀ x ∈ (encode tosses).singles, x.isFinite = true := by decide +kernel
  have hjson : (Json.ofText (Json.render (encode tosses))).root.content? =
      some (Json.written (encode tosses)) := by decide +kernel
  obtain ⟨t, htext, hyaml⟩ : ∃ t, Yaml.Tree.ofText? (Yaml.render (encode endless)) = some t ∧
      t.content? = some (encode endless) := Option.bind_eq_some_iff.mp (by decide +kernel)
  obtain ⟨_, htosses, _⟩ := reading_undoes_writing tosses rfl
  obtain ⟨_, _, hendless⟩ := reading_undoes_writing endless rfl
  exact ⟨(htosses hfinite).2 _ hjson, t, htext, hendless t hyaml⟩

end Choreo
