import Patchbay.Wiring

/-!
# Events

What the engine reports while it works. Each event has a level, a message and fields.
-/
namespace Patchbay

/-- How much attention an event asks for. -/
inductive Level where
  | trace
  | debug
  | info
  | warn
  deriving Repr, DecidableEq

/-- The name of a level in reports. -/
def Level.label : Level → String
  | trace => "TRACE"
  | debug => "DEBUG"
  | info => "INFO"
  | warn => "WARN"

/-- Something worth reporting. -/
inductive Event (τ : Type) where
  /-- A partial found no bin in the spectrum. -/
  | partialDropped (index amplitude rate : Float32)
  /-- A wave was made from partials. -/
  | waveSynthesized (partials : Nat) (rate : Float32)
  /-- A connection was not made. -/
  | connectionRejected (connection : Connection)
  /-- A connection was left out of the plan since it closes a cycle. -/
  | cycleCut (source target : NodeKey)
  /-- A plan was made. -/
  | planRebuilt (nodes : Nat)
  /-- A voice was armed with these delays. -/
  | noteScheduled (carrier : NodeKey) (start stop : τ)
  /-- There are more modulating signals than weights, or fewer. -/
  | modulationUneven (signals weights : Nat)
  /-- An id of an instrument stands for more than one thing. -/
  | idShared (id : String)
  /-- An oscillator was made for an id. -/
  | oscillatorCreated (id : String)
  /-- A cable ends on an id that stands for nothing. -/
  | cableLoose (cable source target : String)
  /-- A cable joins two things that cannot be joined. -/
  | cableUnsupported (cable : String)
  | transportPlaying (time : τ)
  | transportPaused (time : τ)
  | transportReset (location : τ)
  /-- The notes of a project were scheduled from a position. -/
  | notesScheduled (offset : τ) (nodes : Nat)
  deriving Repr

/-- The value of a field of an event. -/
inductive FieldValue (τ : Type) where
  | text (text : String)
  | count (count : Nat)
  | single (value : Float32)
  | time (time : τ)

namespace Event

variable {τ : Type}

/-- The level of an event. -/
def level : Event τ → Level
  | waveSynthesized .. | cycleCut .. | noteScheduled .. | cableLoose .. | cableUnsupported .. =>
    .trace
  | partialDropped .. | planRebuilt .. | oscillatorCreated .. | transportReset ..
  | notesScheduled .. => .debug
  | transportPlaying .. | transportPaused .. => .info
  | connectionRejected .. | modulationUneven .. | idShared .. => .warn

/-- The message of an event. -/
def message : Event τ → String
  | partialDropped .. => "dropping partial outside the frequency-domain buffer"
  | waveSynthesized .. => "synthesized wave"
  | connectionRejected .. => "rejected connection"
  | cycleCut .. => "dropping cyclic connection from plan"
  | planRebuilt .. => "rebuilt render plan"
  | noteScheduled .. => "scheduled note"
  | modulationUneven .. =>
    "modulator signals and weights differ in length, using the common prefix"
  | idShared .. => "node id used by more than one role"
  | oscillatorCreated .. => "creating oscillator"
  | cableLoose .. => "skipping edge with unknown endpoint"
  | cableUnsupported .. => "ignoring unsupported edge"
  | transportPlaying .. => "transport playing"
  | transportPaused .. => "transport paused"
  | transportReset .. => "transport reset"
  | notesScheduled .. => "scheduled notes"

/-- The named fields of an event. -/
def fields : Event τ → List (String × FieldValue τ)
  | partialDropped index amplitude rate =>
    [("partial", .single index), ("amplitude", .single amplitude), ("sample_rate", .single rate)]
  | waveSynthesized partials rate => [("partials", .count partials), ("sample_rate", .single rate)]
  | connectionRejected connection =>
    [("from", .text (NodeKey.label connection.source)),
      ("to", .text (NodeKey.label connection.target)),
      ("port", .text connection.inlet.label)]
  | cycleCut source target =>
    [("from", .text (NodeKey.label source)), ("to", .text (NodeKey.label target))]
  | planRebuilt nodes => [("nodes", .count nodes)]
  | noteScheduled carrier start stop =>
    [("carrier", .text (NodeKey.label carrier)), ("start", .time start), ("stop", .time stop)]
  | modulationUneven signals weights => [("signals", .count signals), ("weights", .count weights)]
  | idShared id => [("id", .text id)]
  | oscillatorCreated id => [("id", .text id)]
  | cableLoose cable source target =>
    [("edge", .text cable), ("from", .text source), ("to", .text target)]
  | cableUnsupported cable => [("edge", .text cable)]
  | transportPlaying time => [("time", .time time)]
  | transportPaused time => [("time", .time time)]
  | transportReset location => [("location", .time location)]
  | notesScheduled offset nodes => [("offset", .time offset), ("nodes", .count nodes)]

end Event

end Patchbay
