import Patchbay.Graph.Basic
import Patchbay.Note
import Patchbay.Spectrum

/-!
# Oscillators

An oscillator turns notes into voices of one timbre. Its output stage, a gain, and its
frequency control, a constant, stay in the graph; the generators of a voice come with the
note. Each takes its pitch from the frequency it was made with plus the frequency control.
The wave of the timbre is kept from voice to voice.
-/
namespace Patchbay

/-- What is reported about the partials that found no bin. -/
def Placement.events {τ : Type} (placement : Placement) (rate : Float32) : List (Event τ) :=
  placement.dropped.map fun entry => .partialDropped entry.index entry.amplitude rate

/-- A wave that was made, with what it was made from. -/
structure WaveMemo where
  partials : Partials
  rate : Float32
  shared : SharedWave
  deriving Repr

namespace WaveMemo

variable {τ : Type} [Fourier]

/-- The wave of a timbre at the rate of a graph: the one that was kept, if it was made from
partials that agree at this rate, else a new one, which is then kept. -/
def wave (memo : Option WaveMemo) (graph : Graph τ) (partials : Partials) :
    Except Fault (WaveMemo × Graph τ) :=
  match memo.filter fun kept => kept.rate == graph.rate && kept.partials == partials with
  | some kept => .ok (kept, graph)
  | none => do
    let real ← Partials.empty.place graph.rate
    let imag ← partials.place graph.rate
    let graph := graph.logAll (imag.events graph.rate)
    let (shared, graph) := graph.synthesize real.bins imag.bins
    .ok (⟨partials, graph.rate, shared⟩, graph.log (.waveSynthesized partials.size graph.rate))

end WaveMemo

/-- The generators of one note. -/
structure Voice where
  carrier : NodeKey
  /-- All generators of the voice, the carrier first. -/
  generators : List NodeKey
  deriving Repr

/-- Arm all generators of a voice for a note, seen from a position of the project. -/
def Voice.arm {τ : Type} [TimeAxis τ] (voice : Voice) (graph : Graph τ) (note : Note τ)
    (position : τ) : Delays τ × Graph τ :=
  let delays := note.delays position
  let now := graph.now
  let armed := voice.generators.foldl (fun graph key =>
    ((graph.armStart key (now + delays.start)).1.armStop key (now + delays.stop)).1) graph
  (delays, armed.log (.noteScheduled voice.carrier delays.start delays.stop))

/-- A source of voices. -/
structure Oscillator where
  partials : Partials
  /-- The gain that all voices go through. -/
  output : NodeKey
  /-- The constant that is added to the frequency of every generator. -/
  control : NodeKey
  /-- Do voices take the frequency of their notes? -/
  followsNote : Bool
  memo : Option WaveMemo
  /-- All nodes of the voices, in the order in which they came. -/
  nodes : List NodeKey
  /-- The generators among them. -/
  generators : List NodeKey
  deriving Repr

namespace Oscillator

variable {τ : Type} [Fourier]

/-- The frequency of an oscillator that nothing else gives a frequency to. -/
def defaultFrequency : Float32 := 440.0

/-- An oscillator around an output stage and a frequency control. -/
def around (partials : Partials) (output control : NodeKey) : Oscillator where
  partials := partials
  output := output
  control := control
  followsNote := false
  memo := none
  nodes := []
  generators := []

/-- An oscillator with an output stage and a frequency control of its own. -/
def create (graph : Graph τ) (partials : Partials) : Oscillator × Graph τ :=
  let (output, graph) := graph.addGain 1.0
  let (control, graph) := graph.addConstant defaultFrequency
  (around partials output control, graph)

/-- Take the frequency from the notes: the control goes down to zero. -/
def follow (oscillator : Oscillator) (graph : Graph τ) : Oscillator × Graph τ :=
  ({ oscillator with followsNote := true }, (graph.setValue oscillator.control .offset 0.0).1)

/-- Play at a fixed frequency, whatever the notes. -/
def setFrequency (oscillator : Oscillator) (graph : Graph τ) (frequency : Float32) :
    Oscillator × Graph τ :=
  ({ oscillator with followsNote := false },
    (graph.setValue oscillator.control .offset frequency).1)

/-- Play at the default frequency. -/
def resetFrequency (oscillator : Oscillator) (graph : Graph τ) : Oscillator × Graph τ :=
  oscillator.setFrequency graph defaultFrequency

/-- Set the factor of the output stage. -/
def setGain (oscillator : Oscillator) (graph : Graph τ) (factor : Float32) : Graph τ :=
  (graph.setValue oscillator.output .gain factor).1

/-- The factor of the output stage. -/
def gain? (oscillator : Oscillator) (graph : Graph τ) : Option Float32 :=
  graph.value? oscillator.output .gain

/-- The spectrum of the partials at a sample rate. -/
def spectrum (oscillator : Oscillator) (rate : Float32) : Except Fault Placement :=
  oscillator.partials.place rate

/-- The wave of the partials. -/
def wave (oscillator : Oscillator) (graph : Graph τ) :
    Except Fault (SharedWave × Oscillator × Graph τ) := do
  let (memo, graph) ← WaveMemo.wave oscillator.memo graph oscillator.partials
  .ok (memo.shared, { oscillator with memo := some memo }, graph)

/-- Count a node among those of the voices. -/
def track (oscillator : Oscillator) (key : NodeKey) : Oscillator :=
  { oscillator with nodes := oscillator.nodes ++ [key] }

/-- Add a generator that the frequency control drives. Its output goes nowhere yet. -/
def spawn (oscillator : Oscillator) (graph : Graph τ) (frequency : Float32) :
    Except Fault (NodeKey × Oscillator × Graph τ) := do
  let (wave, oscillator, graph) ← oscillator.wave graph
  let (key, graph) := graph.addGenerator wave
  let (graph, _) := graph.setValue key .frequency frequency
  let (graph, _) := graph.connect oscillator.control key (.knob .frequency)
  .ok (key, { oscillator.track key with generators := oscillator.generators ++ [key] }, graph)

/-- Build a voice: a generator that goes to the output stage. -/
def build (oscillator : Oscillator) (graph : Graph τ) (frequency : Float32) :
    Except Fault (Voice × Oscillator × Graph τ) := do
  let (carrier, oscillator, graph) ← oscillator.spawn graph frequency
  let (graph, _) := graph.connect carrier oscillator.output .audio
  .ok (⟨carrier, [carrier]⟩, oscillator, graph)

/-- The frequency that the generators for a note are made with. -/
def pitch (oscillator : Oscillator) (note : Note τ) : Float32 :=
  if oscillator.followsNote then note.frequency else 0.0

/-- Build a voice for a note and arm it. -/
def schedule [TimeAxis τ] (oscillator : Oscillator) (graph : Graph τ) (note : Note τ)
    (position : τ) : Except Fault (Delays τ × Oscillator × Graph τ) := do
  let (voice, oscillator, graph) ← oscillator.build graph (oscillator.pitch note)
  let (delays, graph) := voice.arm graph note position
  .ok (delays, oscillator, graph)

/-- Take over the nodes of another oscillator, with its output stage at the end. -/
def absorb (oscillator branch : Oscillator) : Oscillator :=
  { oscillator with
    nodes := oscillator.nodes ++ branch.nodes ++ [branch.output]
    generators := oscillator.generators ++ branch.generators }

/-- Remove all voices. -/
def free (oscillator : Oscillator) (graph : Graph τ) : Oscillator × Graph τ :=
  ({ oscillator with nodes := [], generators := [] },
    oscillator.nodes.foldl (fun graph key => (graph.remove key).1) graph)

/-- Silence all voices at once and leave them in the graph. -/
def halt [TimeAxis τ] (oscillator : Oscillator) (graph : Graph τ) : Graph τ :=
  oscillator.generators.foldl (fun graph key => (graph.armStop key 0).1) graph

end Oscillator

end Patchbay
