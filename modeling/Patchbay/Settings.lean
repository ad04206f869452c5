/-!
# Settings

What the engine is set up with before it plays.
-/
namespace Patchbay

/-- The settings of an engine. Without the name of an output device it takes the default
one of the machine. -/
structure Settings where
  sampleRate : Float32 := 48000.0
  channels : UInt16 := 2
  outputDevice : Option String := none
  deriving Repr, BEq

end Patchbay
