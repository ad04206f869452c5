import Patchbay.Clock
import Patchbay.Event
import Patchbay.Graph.Buffer
import Patchbay.Graph.Plan
import Patchbay.Node.Basic
import Patchbay.Wave.Synthesis

/-!
# The graph

A graph holds nodes, the connections between them, and the clock. A node that is removed
leaves its place empty, so a key stands for one node for good. The plan for rendering is
kept until the wiring changes. The journal lists what was reported, oldest first.
-/
namespace Patchbay

/-- Nodes and the connections between them. -/
structure Graph (τ : Type) where
  clock : Clock
  nodes : Array (Option (Node τ))
  /-- The buffer of each node. -/
  outputs : Array Buffer
  /-- What the node that was rendered last was fed with. -/
  sums : Sums
  /-- In the order in which they were made. -/
  connections : List Connection
  /-- The plan for these connections, if it has been made. -/
  plan : Option Plan
  /-- How many waves have been synthesized. -/
  waves : Nat
  journal : Array (Event τ)

namespace Graph

variable {τ : Type}

/-- The key of the node that all sound goes to. -/
def destination : NodeKey := 0

/-- A graph of the destination alone, with a suspended clock. -/
def atRate (rate : Float32) : Graph τ where
  clock := Clock.atRate rate
  nodes := #[some .destination]
  outputs := #[.blank]
  sums := .blank
  connections := []
  plan := none
  waves := 0
  journal := #[]

/-- Report an event. -/
def log (graph : Graph τ) (event : Event τ) : Graph τ :=
  { graph with journal := graph.journal.push event }

/-- Report events, the first one first. -/
def logAll (graph : Graph τ) (events : List (Event τ)) : Graph τ :=
  events.foldl log graph

/-- The graph's rate in frames per second. -/
def rate (graph : Graph τ) : Float32 :=
  graph.clock.rate

/-- The clock time. -/
def now [TimeAxis τ] (graph : Graph τ) : τ :=
  graph.clock.now

/-- Let the clock run. -/
def resume (graph : Graph τ) : Graph τ :=
  { graph with clock := graph.clock.resume }

/-- Let the clock stand still. -/
def suspend (graph : Graph τ) : Graph τ :=
  { graph with clock := graph.clock.suspend }

/-! ### Nodes -/

/-- The node under a key, while it lives. -/
def node? (graph : Graph τ) (key : NodeKey) : Option (Node τ) :=
  graph.nodes[key]?.join

/-- Does a node live under the key? -/
def contains (graph : Graph τ) (key : NodeKey) : Bool :=
  (graph.node? key).isSome

/-- The number of nodes that live, with the destination. -/
def nodeCount (graph : Graph τ) : Nat :=
  graph.nodes.countP Option.isSome

/-- The generator under a key. -/
def generator? (graph : Graph τ) (key : NodeKey) : Option (Generator τ) :=
  (graph.node? key).bind Node.generator?

/-- Put another node into the place of one that lives. -/
def replace (graph : Graph τ) (key : NodeKey) (node : Node τ) : Graph τ :=
  { graph with nodes := graph.nodes.setIfInBounds key (some node) }

/-- Add a node under the next key. -/
def add (graph : Graph τ) (node : Node τ) : NodeKey × Graph τ :=
  (graph.nodes.size,
    { graph with
      nodes := graph.nodes.push (some node)
      outputs := graph.outputs.push .blank })

/-- Add a generator. It is silent until it is armed. -/
def addGenerator (graph : Graph τ) (wave : SharedWave) : NodeKey × Graph τ :=
  graph.add (.generator (Generator.playing wave))

/-- Add a gain. -/
def addGain (graph : Graph τ) (factor : Float32) : NodeKey × Graph τ :=
  graph.add (.gain factor)

/-- Add a constant. -/
def addConstant (graph : Graph τ) (level : Float32) : NodeKey × Graph τ :=
  graph.add (.constant level)

/-- The value of a knob, if the node lives and has it. -/
def value? (graph : Graph τ) (key : NodeKey) (knob : Knob) : Option Float32 :=
  (graph.node? key).bind (·.value? knob)

/-- Turn a knob and say whether the node lives and has it. -/
def setValue (graph : Graph τ) (key : NodeKey) (knob : Knob) (value : Float32) :
    Graph τ × Bool :=
  match (graph.node? key).bind (·.setValue? knob value) with
  | some node => (graph.replace key node, true)
  | none => (graph, false)

/-- Change a generator and say whether there is one under the key. -/
def modifyGenerator (graph : Graph τ) (key : NodeKey) (f : Generator τ → Generator τ) :
    Graph τ × Bool :=
  match graph.generator? key with
  | some generator => (graph.replace key (.generator (f generator)), true)
  | none => (graph, false)

/-- Arm a generator to sound from a time on. -/
def armStart (graph : Graph τ) (key : NodeKey) (time : τ) : Graph τ × Bool :=
  graph.modifyGenerator key fun generator => { generator with starts := some time }

/-- Arm a generator to fall silent at a time. -/
def armStop (graph : Graph τ) (key : NodeKey) (time : τ) : Graph τ × Bool :=
  graph.modifyGenerator key fun generator => { generator with stops := some time }

/-- Make a wave from the coefficients of its harmonics. -/
def synthesize [Fourier] (graph : Graph τ) (real imag : Array Float32) : SharedWave × Graph τ :=
  (⟨graph.waves, Wave.ofHarmonics Fourier.inverse real imag⟩,
    { graph with waves := graph.waves + 1 })

/-! ### Connections -/

/-- Can this connection be made? Both ends live, they differ, the source has an output and
the target has the inlet. -/
def admits (graph : Graph τ) (connection : Connection) : Bool :=
  (graph.node? connection.source).any Node.hasOutput &&
    (graph.node? connection.target).any (·.accepts connection.inlet) &&
    connection.source != connection.target

/-- Make a connection and say whether it is there now. One that is there already is left as
it is. -/
def connect (graph : Graph τ) (source target : NodeKey) (inlet : Inlet) : Graph τ × Bool :=
  let connection : Connection := ⟨source, target, inlet⟩
  if graph.admits connection then
    if connection ∈ graph.connections then (graph, true)
    else
      ({ graph with connections := graph.connections ++ [connection], plan := none }, true)
  else (graph.log (.connectionRejected connection), false)

/-- Keep some of the connections and say how many went. The plan goes with them. -/
def keepConnections (graph : Graph τ) (keep : Connection → Bool) : Graph τ × Nat :=
  let kept := graph.connections.filter keep
  let removed := graph.connections.length - kept.length
  ({ graph with
      connections := kept
      plan := if 0 < removed then none else graph.plan }, removed)

/-- Take out the connections that start from a node. -/
def disconnect (graph : Graph τ) (source : NodeKey) : Graph τ × Nat :=
  graph.keepConnections fun c => c.source != source

/-- Take out the connections that end on an inlet of a node. -/
def disconnectInlet (graph : Graph τ) (target : NodeKey) (inlet : Inlet) : Graph τ × Nat :=
  graph.keepConnections fun c => !(c.target == target && c.inlet == inlet)

/-- Take out a node with all connections that touch it and say whether it lived. The
destination stays. -/
def remove (graph : Graph τ) (key : NodeKey) : Graph τ × Bool :=
  if key = destination ∨ !graph.contains key then (graph, false)
  else
    ({ graph with
        nodes := graph.nodes.setIfInBounds key none
        connections := graph.connections.filter fun c => c.source != key && c.target != key
        plan := none }, true)

/-- The connections that end on an inlet of a node. -/
def connectionsInto (graph : Graph τ) (target : NodeKey) (inlet : Inlet) : List Connection :=
  graph.connections.filter fun c => c.target == target && c.inlet == inlet

/-- The connections that start from a node. -/
def connectionsFrom (graph : Graph τ) (source : NodeKey) : List Connection :=
  graph.connections.filter fun c => c.source == source

end Graph

end Patchbay
