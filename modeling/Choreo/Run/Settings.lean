import Choreo.Number.Layout
import Choreo.Schema.Records

/-!
# Run settings

How the entity of a headless run is set up, and how long it runs. Every setting may be left out.
-/

namespace Choreo

structure Settings where
  /-- The greatest number of ticks. -/
  ticks : UInt64 := 600
  /-- The length of a tick in seconds. -/
  step : Single := 1 / 60
  position : Planar := .zero
  forward : Planar := .right
  target : Option Planar := none
  scroll : Planar := .zero
  capabilities : List Capability := Capability.all
  /-- The tick at which the entity becomes inactive. -/
  deactivation : Option UInt64 := none

/-- Why a run with some settings cannot begin. -/
inductive SettingsFault
  | step (seconds : Single)
  | notFinite
  deriving DecidableEq

def SettingsFault.message : SettingsFault → String
  | step seconds => "dt_seconds must be positive, got " ++ seconds.display
  | notFinite => "start_position and forward must be finite"

namespace Settings

def fault? (s : Settings) : Option SettingsFault :=
  if !s.step.isPositiveFinite then some (.step s.step)
  else if !s.position.isFinite || !s.forward.isFinite then some .notFinite
  else none

def schema {σ : Type} [Source σ] : Schema σ Settings :=
  { name := "RunConfig"
    fields :=
      [.optional "ticks" Source.word64 fun v s => { s with ticks := v },
        .optional "dt_seconds" Source.single fun v s => { s with step := v },
        .optional "start_position" decode fun v s => { s with position := v },
        .optional "forward" decode fun v s => { s with forward := v },
        .optional "target" (Source.optional decode) fun v s => { s with target := v },
        .optional "scroll_velocity" decode fun v s => { s with scroll := v },
        .optional "capabilities" decode fun v s => { s with capabilities := v },
        .optional "deactivate_at_tick" (Source.optional Source.word64) fun v s =>
          { s with deactivation := v }]
    blank := {} }

instance : Decode Settings := ⟨schema.read⟩

instance : Encode Settings :=
  ⟨fun s => .object
    [("ticks", .natural s.ticks.toNat), ("dt_seconds", encode s.step),
      ("start_position", encode s.position), ("forward", encode s.forward),
      ("target", encode s.target), ("scroll_velocity", encode s.scroll),
      ("capabilities", encode s.capabilities),
      ("deactivate_at_tick", .option (s.deactivation.map fun n => .natural n.toNat))]⟩

end Settings

end Choreo
