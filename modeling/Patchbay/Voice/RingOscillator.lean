import Patchbay.Voice.Oscillator

/-!
# Ring modulation

A ring is an oscillator whose voices are multiplied by modulators. Every weight that is not
zero adds a stage to the voice, a gain that rests at one and is driven by the modulator at
that weight, so that the stage puts out `chain * (1 + weight * modulator)`. The carrier
feeds the first stage, each stage the next, and the last one the output stage.
-/
namespace Patchbay

/-- An oscillator with modulating signals. -/
structure RingOscillator where
  oscillator : Oscillator
  signals : List Partials
  weights : List Float32
  /-- The wave that was kept for the signal at each index. -/
  memos : List (Option WaveMemo)
  deriving Repr

/-- A modulating signal that takes part in voices, with its place in the list of signals. -/
structure Branch where
  index : Nat
  signal : Partials
  weight : Float32
  deriving Repr

namespace RingOscillator

variable {τ : Type} [Fourier]

/-- A ring without modulation. -/
def create (graph : Graph τ) (partials : Partials) : RingOscillator × Graph τ :=
  let (oscillator, graph) := Oscillator.create graph partials
  (⟨oscillator, [], [], []⟩, graph)

/-- Replace the modulating signals and their weights. It is reported when they do not pair
up. -/
def modulate (ring : RingOscillator) (graph : Graph τ) (signals : List Partials)
    (weights : List Float32) : RingOscillator × Graph τ :=
  ({ ring with signals, weights },
    if signals.length = weights.length then graph
    else graph.log (.modulationUneven signals.length weights.length))

/-- The signals with a weight that is not zero. What has no partner in the other list is
left out. -/
def branches (ring : RingOscillator) : List Branch :=
  ((ring.signals.zip ring.weights).zipIdx.map fun entry =>
    ⟨entry.2, entry.1.1, entry.1.2⟩).filter fun branch => branch.weight != 0.0

/-- A voice while its stages are added. -/
structure Cascade (τ : Type) where
  ring : RingOscillator
  graph : Graph τ
  generators : List NodeKey
  /-- The node that the next stage multiplies. -/
  chain : NodeKey

/-- Add the stage of one branch. The modulator is an oscillator that shares the frequency
control and goes through a gain at the weight; the ring takes over its nodes and keeps its
wave. -/
def Cascade.add (frequency : Float32) (cascade : Cascade τ) (branch : Branch) :
    Except Fault (Cascade τ) := do
  let ring := cascade.ring
  let (output, graph) := cascade.graph.addGain branch.weight
  let modulator := { Oscillator.around branch.signal output ring.oscillator.control with
    memo := ring.memos[branch.index]?.join }
  let (voice, modulator, graph) ← modulator.build graph frequency
  let (stage, graph) := graph.addGain 1.0
  let (graph, _) := graph.connect modulator.output stage (.knob .gain)
  let (graph, _) := graph.connect cascade.chain stage .audio
  .ok {
    ring := { ring with
      oscillator := (ring.oscillator.absorb modulator).track stage
      memos := ring.memos.set branch.index modulator.memo }
    graph := graph
    generators := cascade.generators ++ voice.generators
    chain := stage }

/-- Give every signal a place for its wave. Places that were there stay. -/
def reserve (ring : RingOscillator) : RingOscillator :=
  { ring with memos := ring.memos.rightpad ring.signals.length none }

/-- Build a voice: a carrier that goes through the stages of all branches to the output
stage. -/
def build (ring : RingOscillator) (graph : Graph τ) (frequency : Float32) :
    Except Fault (Voice × RingOscillator × Graph τ) := do
  let (carrier, oscillator, graph) ← ring.oscillator.spawn graph frequency
  let begun : Cascade τ := ⟨reserve { ring with oscillator }, graph, [carrier], carrier⟩
  let cascade ← ring.branches.foldlM (Cascade.add frequency) begun
  let (graph, _) :=
    cascade.graph.connect cascade.chain cascade.ring.oscillator.output .audio
  .ok (⟨carrier, cascade.generators⟩, cascade.ring, graph)

/-- Build a voice for a note and arm it. -/
def schedule [TimeAxis τ] (ring : RingOscillator) (graph : Graph τ) (note : Note τ)
    (position : τ) : Except Fault (Delays τ × RingOscillator × Graph τ) := do
  let (voice, ring, graph) ← ring.build graph (ring.oscillator.pitch note)
  let (delays, graph) := voice.arm graph note position
  .ok (delays, ring, graph)

/-- Change the oscillator of a ring together with a graph. -/
def withOscillator (ring : RingOscillator) (graph : Graph τ)
    (f : Oscillator → Graph τ → Oscillator × Graph τ) : RingOscillator × Graph τ :=
  let (oscillator, graph) := f ring.oscillator graph
  ({ ring with oscillator }, graph)

/-- Remove all voices. -/
def free (ring : RingOscillator) (graph : Graph τ) : RingOscillator × Graph τ :=
  ring.withOscillator graph Oscillator.free

/-- Silence all voices at once and leave them in the graph. -/
def halt [TimeAxis τ] (ring : RingOscillator) (graph : Graph τ) : Graph τ :=
  ring.oscillator.halt graph

end RingOscillator

end Patchbay
