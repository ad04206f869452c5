import Patchbay.Instrument.Basic
import Patchbay.Instrument.Cable
import Patchbay.Voice.RingOscillator

/-!
# Racks

A rack holds what an instrument has in the graph. A part is made when its id first comes up
and stays for as long as the rack; each description sets it anew. Cables are all pulled out
and plugged in again.
-/
namespace Patchbay

/-- A gain in the graph and the factor that its instrument gives it. -/
structure GainStage where
  key : NodeKey
  factor : Float32
  deriving Repr

/-- What an id stands for. -/
abbrev Part := Endpoint NodeKey

/-- The parts of one instrument in the graph. -/
structure Rack where
  oscillators : Roster RingOscillator
  gains : Roster GainStage
  numbers : Roster Float32
  sources : Roster Unit
  sinks : Roster NodeKey
  /-- The oscillators of the latest description. -/
  active : List String
  deriving Repr

namespace Rack

/-- The rack without parts. -/
def empty : Rack where
  oscillators := .empty
  gains := .empty
  numbers := .empty
  sources := .empty
  sinks := .empty
  active := []

instance : Inhabited Rack := ⟨empty⟩

variable {τ : Type} [Fourier]

/-! ### Parts -/

/-- Put an oscillator under an id. -/
def putOscillator (rack : Rack) (id : String) (ring : RingOscillator) : Rack :=
  { rack with oscillators := rack.oscillators.insert id ring }

/-- Put a gain under an id. -/
def putGain (rack : Rack) (id : String) (stage : GainStage) : Rack :=
  { rack with gains := rack.gains.insert id stage }

/-- Set an oscillator to its timbre and its modulation. It is made if it is not there. -/
def setOscillator (instrument : Instrument) (rack : Rack) (graph : Graph τ) (id : String)
    (partials : Partials) : Rack × Graph τ :=
  let (ring, graph) :=
    match rack.oscillators.find? id with
    | some ring => (ring, graph)
    | none => RingOscillator.create (graph.log (.oscillatorCreated id)) partials
  let ring := { ring with oscillator := { ring.oscillator with partials } }
  let (ring, graph) := ring.modulate graph instrument.signals (instrument.weights id)
  (rack.putOscillator id ring, graph)

/-- Set a gain to its factor. It is made if it is not there. -/
def setGain (rack : Rack) (graph : Graph τ) (id : String) (factor : Float32) :
    Rack × Graph τ :=
  let (key, graph) :=
    match rack.gains.find? id with
    | some stage => (stage.key, graph)
    | none => graph.addGain factor
  (rack.putGain id ⟨key, factor⟩, (graph.setValue key .gain factor).1)

/-- Make or set all parts of an instrument. -/
def furnish (rack : Rack) (graph : Graph τ) (instrument : Instrument) : Rack × Graph τ :=
  let graph := graph.logAll (instrument.sharedIds.map .idShared)
  let (rack, graph) := instrument.oscillators.entries.foldl
    (fun (rack, graph) (id, partials) => rack.setOscillator instrument graph id partials)
    (rack, graph)
  let (rack, graph) := instrument.gains.entries.foldl
    (fun (rack, graph) (id, factor) => rack.setGain graph id factor) (rack, graph)
  ({ rack with
      numbers := instrument.numbers.entries.foldl
        (fun numbers (id, value) => numbers.insert id value) rack.numbers
      sources := rack.sources.insert instrument.source ()
      sinks := rack.sinks.insert instrument.sink Graph.destination
      active := instrument.oscillators.names }, graph)

/-- What an id stands for. Oscillators come before gains, then numbers, sources and
sinks. -/
def part? (rack : Rack) (id : String) : Option Part :=
  match rack.oscillators.find? id with
  | some ring => some (.oscillator ring.oscillator.output ring.oscillator.control)
  | none =>
    match rack.gains.find? id with
    | some stage => some (.gain stage.key)
    | none =>
      match rack.numbers.find? id with
      | some value => some (.number value)
      | none =>
        if rack.sources.contains id then some .source
        else (rack.sinks.find? id).map .sink

/-- Change the oscillator under an id. -/
def modifyOscillator (rack : Rack) (graph : Graph τ) (id : String)
    (f : Oscillator → Graph τ → Oscillator × Graph τ) : Rack × Graph τ :=
  match rack.oscillators.find? id with
  | some ring =>
    let (ring, graph) := ring.withOscillator graph f
    (rack.putOscillator id ring, graph)
  | none => (rack, graph)

/-- Change all oscillators, in the order of their ids. -/
def modifyOscillators (rack : Rack) (graph : Graph τ)
    (f : Oscillator → Graph τ → Oscillator × Graph τ) : Rack × Graph τ :=
  let (oscillators, graph) :=
    rack.oscillators.mapState (fun _ ring graph => ring.withOscillator graph f) graph
  ({ rack with oscillators }, graph)

/-! ### Cables -/

/-- Pull an oscillator out of everything and let it play at the default frequency. -/
def unplugOscillator (oscillator : Oscillator) (graph : Graph τ) : Oscillator × Graph τ :=
  let (graph, _) := graph.disconnect oscillator.output
  let (graph, _) := graph.disconnectInlet oscillator.control (.knob .offset)
  oscillator.resetFrequency graph

/-- Pull out a gain and set it back to its factor. -/
def unplugGain (graph : Graph τ) (stage : GainStage) : Graph τ :=
  let (graph, _) := graph.disconnect stage.key
  (graph.setValue stage.key .gain stage.factor).1

/-- Pull out all cables. -/
def unplug (rack : Rack) (graph : Graph τ) : Rack × Graph τ :=
  let (rack, graph) := rack.modifyOscillators graph unplugOscillator
  (rack, rack.gains.values.foldl unplugGain graph)

/-- Plug in one cable. -/
def plug (rack : Rack) (graph : Graph τ) (cable : Cable) : Rack × Graph τ :=
  match rack.part? cable.source, rack.part? cable.target with
  | some feeding, some fed =>
    match cable.plug.effect feeding fed with
    | .connect source target inlet => (rack, (graph.connect source target inlet).1)
    | .tune frequency =>
      rack.modifyOscillator graph cable.target fun oscillator graph =>
        oscillator.setFrequency graph frequency
    | .follow => rack.modifyOscillator graph cable.target Oscillator.follow
    | .turn stage factor => (rack, (graph.setValue stage .gain factor).1)
    | .nothing => (rack, graph.log (.cableUnsupported cable.id))
  | _, _ => (rack, graph.log (.cableLoose cable.id cable.source cable.target))

/-- Pull out all cables and plug these in, one after another. -/
def patch (rack : Rack) (graph : Graph τ) (cables : List Cable) : Rack × Graph τ :=
  cables.foldl (fun (rack, graph) cable => rack.plug graph cable) (rack.unplug graph)

/-! ### Notes -/

/-- Schedule a note on all oscillators of the latest description. -/
def schedule [TimeAxis τ] (rack : Rack) (graph : Graph τ) (note : Note τ) (position : τ) :
    Attempt (Rack × Graph τ) :=
  Attempt.visit (fun (rack, graph) id =>
    match rack.oscillators.find? id with
    | none => .done (rack, graph)
    | some ring =>
      match ring.schedule graph note position with
      | .ok (_, ring, graph) =>
        .done (rack.putOscillator id ring, graph)
      | .error fault => .stopped (rack, graph) fault) (rack, graph) rack.active

/-- Remove all voices. -/
def free (rack : Rack) (graph : Graph τ) : Rack × Graph τ :=
  rack.modifyOscillators graph Oscillator.free

/-- Silence all voices at once. -/
def halt [TimeAxis τ] (rack : Rack) (graph : Graph τ) : Graph τ :=
  rack.oscillators.values.foldl (fun graph ring => ring.halt graph) graph

/-- The number of generators of all voices. -/
def generatorCount (rack : Rack) : Nat :=
  rack.oscillators.values.foldl (fun count ring => count + ring.oscillator.generators.length) 0

end Rack

end Patchbay
