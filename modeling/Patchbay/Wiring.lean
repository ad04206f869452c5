/-!
# Wiring

Nodes are known by keys. A connection goes from the output of one node to an inlet of
another: to its audio input, or to the knob that sets its parameter.
-/
namespace Patchbay

/-- The number of a node. The destination has zero, and every new node the next number. -/
abbrev NodeKey : Type := Nat

/-- The parameters that a node can have. -/
inductive Knob where
  /-- The pitch of a generator, in turns per second. -/
  | frequency
  /-- The factor of a gain. -/
  | gain
  /-- The level of a constant. -/
  | offset
  deriving Repr, DecidableEq

/-- Where a connection ends on its target. -/
inductive Inlet where
  /-- The audio input. -/
  | audio
  /-- A knob: the signal is added to the value of the knob, sample by sample. -/
  | knob (knob : Knob)
  deriving Repr, DecidableEq

/-- The output of `source` feeds `inlet` on `target`. -/
structure Connection where
  source : NodeKey
  target : NodeKey
  inlet : Inlet
  deriving Repr, DecidableEq

/-- The name of a knob in messages. -/
def Knob.label : Knob → String
  | frequency => "Frequency"
  | gain => "Gain"
  | offset => "Offset"

/-- The name of an inlet in messages. -/
def Inlet.label : Inlet → String
  | audio => "Input"
  | knob k => "Param(" ++ k.label ++ ")"

/-- A node key as messages write it. -/
def NodeKey.label (key : NodeKey) : String :=
  "#" ++ toString key

end Patchbay
