import Patchbay.Wiring

/-!
# Cables

A cable joins two parts of an instrument by their ids. What it does hangs on what the ids stand
for.
-/
namespace Patchbay

/-- Which inlet of a gain a cable is plugged into. -/
inductive Plug where
  /-- The knob of the gain. -/
  | gain
  /-- The inlet that signals usually go to. -/
  | usual
  deriving Repr, DecidableEq

/-- A cable between two parts of an instrument. -/
structure Cable where
  id : String
  source : String
  target : String
  plug : Plug
  deriving Repr, DecidableEq

/-- What an end of a cable stands for, with its nodes in `κ`. -/
inductive Endpoint (κ : Type) where
  | oscillator (output control : κ)
  | gain (key : κ)
  | number (value : Float32)
  /-- Where notes come in. -/
  | source
  /-- Where sound goes out. -/
  | sink (key : κ)
  deriving Repr

/-- What a cable does. -/
inductive Effect (κ : Type) where
  | connect (source target : κ) (inlet : Inlet)
  /-- The oscillator at the target plays at a frequency. -/
  | tune (frequency : Float32)
  /-- The oscillator at the target follows the notes. -/
  | follow
  | turn (stage : κ) (factor : Float32)
  | nothing
  deriving Repr

/-- The inlet of a gain that a plug fits. -/
def Plug.inlet : Plug → Inlet
  | gain => .knob .gain
  | usual => .audio

/-- What a cable does between two ends. A signal goes to the frequency control of an
oscillator, to the inlet of a gain that the cable names, or to the sink; a number sets the
frequency of an oscillator or the factor of a gain; the source makes an oscillator follow the
notes. -/
def Plug.effect {κ : Type} (plug : Plug) : Endpoint κ → Endpoint κ → Effect κ
  | .oscillator output _, .oscillator _ control
  | .gain output, .oscillator _ control => .connect output control (.knob .offset)
  | .oscillator output _, .gain stage
  | .gain output, .gain stage => .connect output stage plug.inlet
  | .oscillator output _, .sink key
  | .gain output, .sink key => .connect output key .audio
  | .number value, .oscillator _ _ => .tune value
  | .number value, .gain stage => .turn stage value
  | .source, .oscillator _ _ => .follow
  | _, _ => .nothing

end Patchbay
