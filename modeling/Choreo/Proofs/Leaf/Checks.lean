import Choreo.Leaf.Lifecycle

/-!
# What the check of a leaf lets through

A check asks one thing after another and stops at the first that is wrong. So a leaf that it accepts
meets every demand, and is as authored but for the constants that the check derives.
-/

namespace Choreo

namespace Fault

variable {α : Type} {rest : Unit → Except Fault α} {r : α}

theorem ok_of_require {w : Surroundings} {capability : Capability}
    (h : (require w capability >>= rest) = .ok r) :
    w.has capability = true ∧ rest () = .ok r := by
  rw [require] at h
  split at h
  · next hhas => exact ⟨hhas, h⟩
  · cases h

theorem ok_of_requireFinite {parameter : String} {value : Single}
    (h : (requireFinite parameter value >>= rest) = .ok r) :
    value.isFinite = true ∧ rest () = .ok r := by
  rw [requireFinite] at h
  split at h
  · next hfinite => exact ⟨hfinite, h⟩
  · cases h

theorem ok_of_requirePositive {parameter : String} {value : Single}
    (h : (requirePositive parameter value >>= rest) = .ok r) :
    value.isPositiveFinite = true ∧ rest () = .ok r := by
  rw [requirePositive] at h
  split at h
  · next hpositive => exact ⟨hpositive, h⟩
  · cases h

theorem ok_of_requirePath {reason : Option PathFault}
    (h : (requirePath reason >>= rest) = .ok r) : reason = none ∧ rest () = .ok r := by
  cases reason with
  | none => exact ⟨rfl, h⟩
  | some => cases h

theorem ok_of_map {β : Type} {f : β → α} {x : Except Fault β} (h : f <$> x = .ok r) :
    ∃ b, x = .ok b ∧ f b = r := by
  cases x with
  | error => cases h
  | ok b => exact ⟨b, rfl, Except.ok.inj h⟩

end Fault

variable {w : Surroundings}

theorem Wait.ok_of_init {a b : Wait} (h : a.init = .ok b) : a.duration.isFinite = true ∧ b = a := by
  obtain ⟨hduration, hrest⟩ := Fault.ok_of_requireFinite h
  cases hrest
  exact ⟨hduration, rfl⟩

theorem MoveBy.ok_of_init {a b : MoveBy} (h : a.init w = .ok b) :
    w.has .move = true ∧ a.speed.isPositiveFinite = true ∧ a.vector.isFinite = true ∧
      b = { a with
        direction := a.vector.normalizeOrZero
        distance := if a.vector.normalizeOrZero == .zero then 0 else a.vector.length } := by
  obtain ⟨hhas, hrest⟩ := Fault.ok_of_require h
  obtain ⟨hspeed, hrest⟩ := Fault.ok_of_requirePositive hrest
  cases hvector : a.vector.isFinite with
  | false =>
      simp only [hvector] at hrest
      cases hrest
  | true =>
      simp only [hvector] at hrest
      cases hrest
      exact ⟨hhas, hspeed, rfl, rfl⟩

theorem FollowPath.ok_of_init {a b : FollowPath} (h : a.init w = .ok b) :
    w.has .move = true ∧ a.speed.isPositiveFinite = true ∧ a.path.fault? = none ∧ b = a := by
  obtain ⟨hhas, hrest⟩ := Fault.ok_of_require h
  obtain ⟨hspeed, hrest⟩ := Fault.ok_of_requirePositive hrest
  obtain ⟨hpath, hrest⟩ := Fault.ok_of_requirePath hrest
  cases hrest
  exact ⟨hhas, hspeed, hpath, rfl⟩

theorem FollowBezier.ok_of_init {a b : FollowBezier} (h : a.init w = .ok b) :
    w.has .move = true ∧ a.duration.isPositiveFinite = true ∧ a.path.fault? = none ∧
      b = { a with curveSpeed := a.curveCount / a.duration } := by
  obtain ⟨hhas, hrest⟩ := Fault.ok_of_require h
  obtain ⟨hduration, hrest⟩ := Fault.ok_of_requirePositive hrest
  obtain ⟨hpath, hrest⟩ := Fault.ok_of_requirePath hrest
  cases hrest
  exact ⟨hhas, hduration, hpath, rfl⟩

theorem Walk.ok_of_init {a b : Walk} (h : a.init w = .ok b) :
    w.has .move = true ∧ a.speed.isFinite = true ∧ b = a := by
  obtain ⟨hhas, hrest⟩ := Fault.ok_of_require h
  obtain ⟨hspeed, hrest⟩ := Fault.ok_of_requireFinite hrest
  cases hrest
  exact ⟨hhas, hspeed, rfl⟩

theorem Jump.ok_of_init {a b : Jump} (h : a.init w = .ok b) :
    w.has .move = true ∧ a.impulse.isFinite = true ∧ b = a := by
  obtain ⟨hhas, hrest⟩ := Fault.ok_of_require h
  obtain ⟨himpulse, hrest⟩ := Fault.ok_of_requireFinite hrest
  cases hrest
  exact ⟨hhas, himpulse, rfl⟩

theorem SingleShot.ok_of_init {a b : SingleShot} (h : a.init w = .ok b) :
    w.has .fire = true ∧ a.angle.isFinite = true ∧ b = a := by
  obtain ⟨hhas, hrest⟩ := Fault.ok_of_require h
  obtain ⟨hangle, hrest⟩ := Fault.ok_of_requireFinite hrest
  cases hrest
  exact ⟨hhas, hangle, rfl⟩

theorem Barrage.ok_of_init {a b : Barrage} (h : a.init w = .ok b) :
    w.has .fire = true ∧ a.angleStart.isFinite = true ∧ a.angleEnd.isFinite = true ∧
      a.duration.isFinite = true ∧ b = a := by
  obtain ⟨hhas, hrest⟩ := Fault.ok_of_require h
  obtain ⟨hstart, hrest⟩ := Fault.ok_of_requireFinite hrest
  obtain ⟨hend, hrest⟩ := Fault.ok_of_requireFinite hrest
  obtain ⟨hduration, hrest⟩ := Fault.ok_of_requireFinite hrest
  cases hrest
  exact ⟨hhas, hstart, hend, hduration, rfl⟩

theorem Attack.ok_of_init {a b : Attack} (h : a.init w = .ok b) :
    w.has .melee = true ∧ a.angle.isFinite = true ∧ b = a := by
  obtain ⟨hhas, hrest⟩ := Fault.ok_of_require h
  obtain ⟨hangle, hrest⟩ := Fault.ok_of_requireFinite hrest
  cases hrest
  exact ⟨hhas, hangle, rfl⟩

theorem Lob.ok_of_init {a b : Lob} (h : a.init w = .ok b) :
    w.has .throw = true ∧ a.angle.isFinite = true ∧ a.speed.isPositiveFinite = true ∧ b = a := by
  obtain ⟨hhas, hrest⟩ := Fault.ok_of_require h
  obtain ⟨hangle, hrest⟩ := Fault.ok_of_requireFinite hrest
  obtain ⟨hspeed, hrest⟩ := Fault.ok_of_requirePositive hrest
  cases hrest
  exact ⟨hhas, hangle, hspeed, rfl⟩

end Choreo
