import Choreo.Proofs.Number.Count
import Choreo.Proofs.Writers
import Choreo.Run.Actuation

/-!
# Requests

Some actions ask their entity to do something once: to jump, to shoot, to throw or to strike. What
an action asks for is known from what was authored for it; only the heading is that of the moment. An
update of such an action makes the next of its requests, as many as are due, and what it writes into
clear intentions is what the next record tells.
-/

namespace Choreo

inductive Request
  | jump (impulse : Single)
  | shot (aim : Aim) (angle : Single)
  | toss (aim : Aim) (angle speed : Single)
  | strike (aim : Aim) (angle : Single)
  deriving DecidableEq

/-- What an entity does once. -/
inductive Output
  | jump (impulse : Single)
  | shot (direction : Planar)
  | toss (direction : Planar) (speed : Single)
  | strike (direction : Planar)
  deriving DecidableEq

/-- What comes of a request that is made in some surroundings. -/
def Request.output (w : Surroundings) : Request → Output
  | jump impulse => .jump impulse
  | shot aim angle => .shot ((aim.direction w).rotate angle)
  | toss aim angle speed => .toss ((aim.direction w).rotate angle) speed
  | strike aim angle => .strike ((aim.direction w).rotate angle)

/-- What a record tells of things done once. -/
def Record.outputs (r : Record) : List Output :=
  r.jump.toList.map .jump ++ r.shots.map .shot ++ r.toss.toList.map (fun t => .toss t.1 t.2) ++
    r.strike.toList.map .strike

/-! ### What stands in the intentions -/

namespace Intentions

def jumps (i : Intentions) : List Output := (i.movement.bind (·.takeJump.1)).toList.map .jump

def shots (i : Intentions) : List Output :=
  ((i.fire.bind (·.takeOnce.1)).toList ++ (i.fire.map (·.directions)).getD []).map .shot

def tosses (i : Intentions) : List Output :=
  (i.throw.bind (·.take.1)).toList.map fun t => .toss t.1 t.2

def strikes (i : Intentions) : List Output := (i.melee.bind (·.take.1)).toList.map .strike

/-- What the intentions ask for once. -/
def outputs (i : Intentions) : List Output := i.jumps ++ i.shots ++ i.tosses ++ i.strikes

theorem outputs_eq_nil {i : Intentions} :
    i.outputs = [] ↔ i.jumps = [] ∧ i.shots = [] ∧ i.tosses = [] ∧ i.strikes = [] := by
  simp only [outputs, List.append_eq_nil_iff, and_assoc]

theorem takeJump_of_zero {motion : Motion} (h : motion.jumpImpulse = 0) :
    motion.takeJump.1 = none := by
  have hzero : ¬((0 : Single) != 0) = true := by decide +kernel
  rw [Motion.takeJump, h, if_neg hzero]

theorem outputs_ofCapabilities (capabilities : List Capability) :
    (ofCapabilities capabilities).outputs = [] := by
  rw [outputs_eq_nil]
  refine ⟨?_, ?_, ?_, ?_⟩
  · have hjump : ({} : Motion).takeJump.1 = none := takeJump_of_zero rfl
    by_cases h : Capability.move ∈ capabilities <;> simp [ofCapabilities, jumps, h, hjump]
  · by_cases h : Capability.fire ∈ capabilities <;>
      simp [ofCapabilities, shots, h, Gunfire.takeOnce]
  · by_cases h : Capability.throw ∈ capabilities <;> simp [ofCapabilities, tosses, h, Toss.take]
  · by_cases h : Capability.melee ∈ capabilities <;> simp [ofCapabilities, strikes, h, Strike.take]

end Intentions

namespace Entity

variable (m : Moment) (e : Entity)

theorem actuate_outputs : (e.actuate m).1.outputs = e.intentions.outputs := rfl

theorem actuate_clear : (e.actuate m).2.intentions.outputs = [] := by
  rw [Intentions.outputs_eq_nil]
  refine ⟨?_, ?_, ?_, ?_⟩
  · have hjump (motion : Motion) : motion.takeJump.2.takeJump.1 = none :=
      Intentions.takeJump_of_zero rfl
    cases hmovement : e.intentions.movement <;> simp [actuate, Intentions.jumps, hmovement, hjump]
  · cases hfire : e.intentions.fire <;>
      simp [actuate, Intentions.shots, hfire, Gunfire.takeOnce, Gunfire.drain]
  · cases hthrow : e.intentions.throw <;> simp [actuate, Intentions.tosses, hthrow, Toss.take]
  · cases hmelee : e.intentions.melee <;> simp [actuate, Intentions.strikes, hmelee, Strike.take]

theorem actuate_has : (e.actuate m).2.intentions.has = e.intentions.has := by
  funext capability
  cases capability <;> simp [actuate, Intentions.has]

end Entity

/-- The write asks for nothing that is done once. -/
def Write.isQuiet : Write → Bool
  | velocity _ | groundSpeed _ => true
  | _ => false

namespace Intentions

variable {i : Intentions}

theorem outputs_quiet {writes : List Write} (hquiet : ∀ x ∈ writes, x.isQuiet = true) :
    (Write.applyAll i writes).outputs = i.outputs := by
  induction writes generalizing i with
  | nil => rfl
  | cons x rest ih =>
      have hx : (x.apply i).outputs = i.outputs := by
        cases x with
        | velocity v | groundSpeed v =>
            cases hmovement : i.movement <;>
              simp [Write.apply, outputs, jumps, shots, tosses, strikes, hmovement, Motion.takeJump]
        | _ => simp [Write.isQuiet] at hquiet
      exact (ih fun y hy => hquiet y (by simp [hy])).trans hx

theorem applyAll_bullets (directions : List Planar) :
    Write.applyAll i (directions.map .bullet) =
      { i with fire := i.fire.map fun g => { g with directions := g.directions ++ directions } } := by
  induction directions generalizing i with
  | nil => cases i; simp [Write.applyAll]
  | cons d rest ih =>
      have hrest := ih (i := (Write.bullet d).apply i)
      rw [List.map_cons]
      refine hrest.trans ?_
      simp [Write.apply, Function.comp_def, Gunfire.push]

section Clear

variable (hclear : i.outputs = [])
include hclear

theorem outputs_jump (hmove : i.has .move = true) {impulse : Single}
    (himpulse : (impulse != 0) = true) :
    ((Write.jump impulse).apply i).outputs = [.jump impulse] := by
  obtain ⟨_, hshots, htosses, hstrikes⟩ := outputs_eq_nil.mp hclear
  obtain ⟨motion, hmotion⟩ := Option.isSome_iff_exists.mp hmove
  have hjumps : ((Write.jump impulse).apply i).jumps = [.jump impulse] := by
    simp [jumps, Write.apply, hmotion, Motion.takeJump, himpulse]
  change _ ++ i.shots ++ i.tosses ++ i.strikes = _
  rw [hjumps, hshots, htosses, hstrikes]
  rfl

theorem outputs_shot (hfire : i.has .fire = true) (direction : Planar) :
    ((Write.shot direction).apply i).outputs = [.shot direction] := by
  obtain ⟨hjumps, hshots, htosses, hstrikes⟩ := outputs_eq_nil.mp hclear
  obtain ⟨fire, hfire⟩ := Option.isSome_iff_exists.mp hfire
  have hshots : ((Write.shot direction).apply i).shots = [.shot direction] := by
    simp_all [shots, Write.apply, Gunfire.takeOnce, Gunfire.requestOnce]
  change i.jumps ++ _ ++ i.tosses ++ i.strikes = _
  rw [hjumps, hshots, htosses, hstrikes]
  rfl

theorem outputs_bullets (hfire : i.has .fire = true) (directions : List Planar) :
    (Write.applyAll i (directions.map .bullet)).outputs = directions.map .shot := by
  obtain ⟨hjumps, hshots, htosses, hstrikes⟩ := outputs_eq_nil.mp hclear
  obtain ⟨fire, hfire⟩ := Option.isSome_iff_exists.mp hfire
  rw [applyAll_bullets]
  change i.jumps ++ _ ++ i.tosses ++ i.strikes = _
  rw [hjumps, htosses, hstrikes]
  simp_all [shots, Gunfire.takeOnce]

theorem outputs_toss (hthrow : i.has .throw = true) (direction : Planar) (speed : Single) :
    ((Write.toss direction speed).apply i).outputs = [.toss direction speed] := by
  obtain ⟨hjumps, hshots, _, hstrikes⟩ := outputs_eq_nil.mp hclear
  obtain ⟨throw, hthrow⟩ := Option.isSome_iff_exists.mp hthrow
  change i.jumps ++ i.shots ++ _ ++ i.strikes = _
  rw [hjumps, hshots, hstrikes]
  simp [tosses, Write.apply, hthrow, Toss.take, Toss.request]

theorem outputs_strike (hmelee : i.has .melee = true) (direction : Planar) :
    ((Write.strike direction).apply i).outputs = [.strike direction] := by
  obtain ⟨hjumps, hshots, htosses, _⟩ := outputs_eq_nil.mp hclear
  obtain ⟨melee, hmelee⟩ := Option.isSome_iff_exists.mp hmelee
  change i.jumps ++ i.shots ++ i.tosses ++ _ = _
  rw [hjumps, hshots, htosses]
  simp [strikes, Write.apply, hmelee, Strike.take, Strike.request]

end Clear

end Intentions

/-! ### What an action asks for -/

namespace Barrage

/-- A barrage never runs ahead of its own count. Beyond `2 ^ 24` bullets the count is rounded. -/
theorem shotsDue_le (a : Barrage) (hcount : a.count ≤ 2 ^ 24) (elapsed : Single) :
    a.shotsDue elapsed ≤ a.count := by
  rw [shotsDue]
  split
  · omega
  · split
    · exact le_rfl
    · next hsome hspread =>
        have hle := Single.lesser_ofCount_toUInt32_le (k := a.count - 1) (by omega) (by omega)
          ((elapsed + Moment.slack) / (a.duration / Single.ofCount (a.count - 1)))
        simp only
        omega

/-- The request for a bullet. -/
def request (a : Barrage) (index : Nat) : Request := .shot a.aim (a.angleOf index)

end Barrage

namespace Leaf

/-- All that an action asks for, in order. -/
def requests : Leaf → List Request
  | jump a => [.jump a.impulse]
  | singleShot a => [.shot a.aim a.angle]
  | barrage a => (List.range a.count).map a.request
  | attack a => [.strike a.aim a.angle]
  | lob a => [.toss a.aim a.angle a.speed]
  | wait _ | moveBy _ | followPath _ | followBezier _ | walk _ => []

/-- What a running action has not asked for yet. -/
def pending : Leaf → List Request
  | jump a => if a.requested then [] else [.jump a.impulse]
  | singleShot a => if a.fired then [] else [.shot a.aim a.angle]
  | barrage a => (List.range' a.fired (a.count - a.fired)).map a.request
  | attack a => if a.done then [] else [.strike a.aim a.angle]
  | lob a => if a.done then [] else [.toss a.aim a.angle a.speed]
  | wait _ | moveBy _ | followPath _ | followBezier _ | walk _ => []

/-- An entity with such records can do all that the action asks for. -/
def Deliverable (has : Capability → Bool) : Leaf → Prop
  | jump a => has .move = true ∧ (a.impulse != 0) = true
  | singleShot _ => has .fire = true
  | barrage a => has .fire = true ∧ a.count ≤ 2 ^ 24
  | attack _ => has .melee = true
  | lob _ => has .throw = true
  | wait _ | moveBy _ | followPath _ | followBezier _ | walk _ => True

theorem pending_of_isOver {a : Leaf} (hover : a.isOver = true) : a.pending = [] := by
  cases a <;> simp_all [isOver, pending, Barrage.isOver]

variable (w : Surroundings)

theorem pending_start (a : Leaf) : (a.start w).1.pending = a.requests := by
  cases a with
  | barrage a => exact congrArg (List.map a.request) List.range_eq_range'.symm
  | _ => rfl

theorem Deliverable.start {has : Capability → Bool} {a : Leaf} (h : a.Deliverable has) :
    (a.start w).1.Deliverable has := by
  cases a <;> exact h

theorem start_quiet (a : Leaf) : ∀ x ∈ (a.start w).2, x.isQuiet = true := by
  cases a <;> simp [Leaf.start, Write.isQuiet]

theorem finish_quiet (a : Leaf) : ∀ x ∈ a.finish, x.isQuiet = true := by
  rw [finish]
  split <;> simp [Write.isQuiet]

/-- What an action asks for in an update: it stands in intentions that were clear before. -/
structure Asks (has : Capability → Bool) (w : Surroundings) (before : Leaf) (made : List Request)
    (after : Leaf × List Write) : Prop where
  pending : before.pending = made ++ after.1.pending
  outputs : ∀ i : Intentions, i.has = has → i.outputs = [] →
    (Write.applyAll i after.2).outputs = made.map (·.output w)

variable {has : Capability → Bool} {a b : Leaf}

theorem asks_nothing {writes : List Write} (hpending : a.pending = b.pending)
    (hquiet : ∀ x ∈ writes, x.isQuiet = true) : Asks has w a [] (b, writes) :=
  ⟨hpending, fun _ _ hclear => (Intentions.outputs_quiet hquiet).trans hclear⟩

/-- The action makes its only request, unless it has done so already. -/
theorem asks_once {done : Bool} {x : Write} {r : Request}
    (hpending : a.pending = if done then [] else [r]) (hdone : b.pending = [])
    (hx : ∀ i : Intentions, i.has = has → i.outputs = [] → (x.apply i).outputs = [r.output w]) :
    ∃ made, Asks has w a made (if done then (a, []) else (b, [x])) := by
  cases done with
  | true => exact ⟨[], asks_nothing w rfl (by simp)⟩
  | false => exact ⟨[r], ⟨by simp [hpending, hdone], hx⟩⟩

theorem asks_barrage (m : Moment) {a : Barrage} (h : (barrage a).Deliverable has) :
    ∃ made, Asks has w (barrage a) made ((barrage a).update m w) := by
  obtain ⟨hfire, hcount⟩ := h
  cases hover : a.isOver with
  | true =>
      refine ⟨[], ?_⟩
      have hupdate : (barrage a).update m w = (barrage a, []) := by
        simp [Leaf.update, Barrage.update, hover]
      rw [hupdate]
      exact asks_nothing w rfl (by simp)
  | false =>
      have hfired : a.fired < a.count := by simpa [Barrage.isOver] using hover
      obtain ⟨due, hdue, hbarrage, hwrites⟩ : ∃ due ≤ a.count,
          ((barrage a).update m w).1.pending =
            (List.range' (max a.fired due) (a.count - max a.fired due)).map a.request ∧
          ((barrage a).update m w).2 = a.volley w due := by
        refine ⟨if 0 < a.duration ∧ !m.hasDuration then a.count else a.shotsDue a.elapsed, ?_, ?_, ?_⟩
        · split
          · exact le_rfl
          · exact a.shotsDue_le hcount a.elapsed
        · simp only [Leaf.update, Barrage.update, hover]
          rfl
        · simp only [Leaf.update, Barrage.update, hover]
          rfl
      -- What is due may lie behind what has been fired; then nothing is asked for.
      refine ⟨(List.range' a.fired (due - a.fired)).map a.request, ⟨?_, fun i hi hclear => ?_⟩⟩
      · rw [hbarrage, ← List.map_append]
        refine congrArg (List.map a.request) ?_
        have hmax : max a.fired due = a.fired + (due - a.fired) := by omega
        rw [hmax, List.range'_append_1]
        congr 1
        omega
      · have hbullets := Intentions.outputs_bullets hclear (hi ▸ hfire)
          ((List.range' a.fired (due - a.fired)).map fun index =>
            (a.aim.direction w).rotate (a.angleOf index))
        rw [List.map_map, List.map_map] at hbullets
        rw [hwrites, List.map_map]
        exact hbullets

/-- One update of a running action makes the next of its requests. -/
theorem asks_update (m : Moment) (h : a.Deliverable has) :
    ∃ made, Asks has w a made (a.update m w) := by
  cases hsteers : a.steersVelocity with
  | true =>
      obtain ⟨v, hv⟩ := update_of_steersVelocity m w hsteers
      refine ⟨[], ?_⟩
      have hquiet : ∀ x ∈ (a.update m w).2, x.isQuiet = true := by simp [hv, Write.isQuiet]
      refine asks_nothing w ?_ hquiet
      cases a <;> first | rfl | cases hsteers
  | false =>
      cases a with
      | moveBy a | followPath a | followBezier a => cases hsteers
      | wait a | walk a => exact ⟨[], asks_nothing w rfl (by simp)⟩
      | barrage a => exact asks_barrage w m h
      | jump a =>
          have hupdate : (jump a).update m w = if a.requested then (jump a, []) else
              (jump { a with requested := true }, [.jump a.impulse]) := by
            simp only [Leaf.update, Jump.update]
            split <;> rfl
          rw [hupdate]
          exact asks_once w rfl rfl fun i hi hclear =>
            Intentions.outputs_jump hclear (hi ▸ h.1) h.2
      | singleShot a =>
          have hupdate : (singleShot a).update m w = if a.fired then (singleShot a, []) else
              (singleShot { a with fired := true },
                [.shot ((a.aim.direction w).rotate a.angle)]) := by
            simp only [Leaf.update, SingleShot.update]
            split <;> rfl
          rw [hupdate]
          exact asks_once w rfl rfl fun i hi hclear => Intentions.outputs_shot hclear (hi ▸ h) _
      | attack a =>
          have hupdate : (attack a).update m w = if a.done then (attack a, []) else
              (attack { a with done := true }, [.strike ((a.aim.direction w).rotate a.angle)]) := by
            simp only [Leaf.update, Attack.update]
            split <;> rfl
          rw [hupdate]
          exact asks_once w rfl rfl fun i hi hclear => Intentions.outputs_strike hclear (hi ▸ h) _
      | lob a =>
          have hupdate : (lob a).update m w = if a.done then (lob a, []) else
              (lob { a with done := true },
                [.toss ((a.aim.direction w).rotate a.angle) a.speed]) := by
            simp only [Leaf.update, Lob.update]
            split <;> rfl
          rw [hupdate]
          exact asks_once w rfl rfl fun i hi hclear => Intentions.outputs_toss hclear (hi ▸ h) _ _

theorem Deliverable.update (h : a.Deliverable has) (m : Moment) :
    (a.update m w).1.Deliverable has := by
  cases a with
  | jump a => simp only [Leaf.update, Jump.update]; split <;> exact h
  | singleShot a => simp only [Leaf.update, SingleShot.update]; split <;> exact h
  | barrage a => simp only [Leaf.update, Barrage.update]; split <;> exact h
  | attack a => simp only [Leaf.update, Attack.update]; split <;> exact h
  | lob a => simp only [Leaf.update, Lob.update]; split <;> exact h
  | _ => trivial

end Leaf

/-! ### What passes a check -/

namespace Fault

variable {w : Surroundings} {α β : Type}

theorem exists_of_bind {x : Except Fault α} {f : α → Except Fault β} {b : β}
    (h : (x >>= f) = .ok b) : ∃ a, x = .ok a ∧ f a = .ok b := by
  cases x with
  | error e => cases h
  | ok a => exact ⟨a, rfl, h⟩

theorem exists_of_map {x : Except Fault α} {f : α → β} {b : β} (h : f <$> x = .ok b) :
    ∃ a, x = .ok a ∧ f a = b := by
  cases x with
  | error e => cases h
  | ok a => exact ⟨a, rfl, Except.ok.inj h⟩

theorem has_of_require {capability : Capability} {u : Unit}
    (h : require w capability = .ok u) : w.has capability = true := by
  by_contra hnot
  rw [require, if_neg hnot] at h
  cases h

end Fault

namespace Leaf

/-- What has passed its check asks for what was authored, and its entity can do it. -/
theorem deliverable_of_init {w : Surroundings} {a b : Leaf} (hinit : a.init w = .ok b)
    (himpulse : ∀ j, a = .jump j → (j.impulse != 0) = true)
    (hcount : ∀ v, a = .barrage v → v.count ≤ 2 ^ 24) :
    b.requests = a.requests ∧ b.Deliverable w.has := by
  cases a with
  | jump a =>
      obtain ⟨j, hj, rfl⟩ := Fault.exists_of_map hinit
      obtain ⟨_, hmove, hj⟩ := Fault.exists_of_bind hj
      obtain ⟨_, _, hj⟩ := Fault.exists_of_bind hj
      obtain rfl : a = j := Except.ok.inj hj
      exact ⟨rfl, Fault.has_of_require hmove, himpulse a rfl⟩
  | singleShot a =>
      obtain ⟨j, hj, rfl⟩ := Fault.exists_of_map hinit
      obtain ⟨_, hfire, hj⟩ := Fault.exists_of_bind hj
      obtain ⟨_, _, hj⟩ := Fault.exists_of_bind hj
      obtain rfl : a = j := Except.ok.inj hj
      exact ⟨rfl, Fault.has_of_require hfire⟩
  | barrage a =>
      obtain ⟨j, hj, rfl⟩ := Fault.exists_of_map hinit
      obtain ⟨_, hfire, hj⟩ := Fault.exists_of_bind hj
      obtain ⟨_, _, hj⟩ := Fault.exists_of_bind hj
      obtain ⟨_, _, hj⟩ := Fault.exists_of_bind hj
      obtain ⟨_, _, hj⟩ := Fault.exists_of_bind hj
      obtain rfl : a = j := Except.ok.inj hj
      exact ⟨rfl, Fault.has_of_require hfire, hcount a rfl⟩
  | attack a =>
      obtain ⟨j, hj, rfl⟩ := Fault.exists_of_map hinit
      obtain ⟨_, hmelee, hj⟩ := Fault.exists_of_bind hj
      obtain ⟨_, _, hj⟩ := Fault.exists_of_bind hj
      obtain rfl : a = j := Except.ok.inj hj
      exact ⟨rfl, Fault.has_of_require hmelee⟩
  | lob a =>
      obtain ⟨j, hj, rfl⟩ := Fault.exists_of_map hinit
      obtain ⟨_, hthrow, hj⟩ := Fault.exists_of_bind hj
      obtain ⟨_, _, hj⟩ := Fault.exists_of_bind hj
      obtain ⟨_, _, hj⟩ := Fault.exists_of_bind hj
      obtain rfl : a = j := Except.ok.inj hj
      exact ⟨rfl, Fault.has_of_require hthrow⟩
  | _ =>
      obtain ⟨j, _, rfl⟩ := Fault.exists_of_map hinit
      exact ⟨rfl, trivial⟩

end Leaf
end Choreo
