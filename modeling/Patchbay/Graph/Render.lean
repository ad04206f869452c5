import Patchbay.Graph.Basic

/-!
# Rendering

A graph is rendered in chunks. In each chunk the nodes of the plan are rendered one after
another, each over all frames of the chunk, from the buffers of the nodes that feed it. No
buffer is blank when a chunk begins: it holds what was rendered before.
-/
namespace Patchbay

/-- The nodes of a graph and the buffers they are rendered in. -/
structure Stage (τ : Type) where
  nodes : Array (Option (Node τ))
  outputs : Array Buffer
  sums : Sums

namespace Stage

variable {τ : Type}

/-- The buffer of a node that lives. -/
def output? (stage : Stage τ) (key : NodeKey) : Option Buffer :=
  if stage.nodes[key]?.join.isSome then stage.outputs[key]? else none

/-- Add up the signals of the links, one link after another, beginning with silence. A
source that does not live is passed over. -/
def gather (stage : Stage τ) (n : Nat) (links : List Link) : Except Fault Sums := do
  let cleared ← stage.sums.clear n
  links.foldlM (fun sums link =>
    match stage.output? link.source with
    | none => .ok sums
    | some buffer => do
      let signal ← buffer.first n
      .ok (sums.mix link.inlet signal)) cleared

variable [TimeAxis τ]

/-- Render the node of one step. -/
def step (block : Block τ) (n : Nat) (stage : Stage τ) (step : Step) :
    Except Fault (Stage τ) := do
  let sums ← stage.gather n step.inputs
  match stage.nodes[step.key]?.join, stage.outputs[step.key]? with
  | some node, some output =>
    let input ← sums.input.first n
    let modulation ← sums.modulation.first n
    let out ← output.first n
    let (node, samples) ← node.process block input modulation out
    .ok {
      nodes := stage.nodes.setIfInBounds step.key (some node)
      outputs := stage.outputs.setIfInBounds step.key (output.lay samples)
      sums := sums }
  | _, _ => .ok { stage with sums }

/-- Render the nodes of a plan in order. -/
def run (block : Block τ) (n : Nat) (stage : Stage τ) (plan : Plan) : Except Fault (Stage τ) :=
  plan.steps.foldlM (step block n) stage

/-- What is heard: the signal of the destination, if it lives. -/
def heard (stage : Stage τ) (n : Nat) : Except Fault (List Float32) :=
  match stage.output? Graph.destination with
  | some output => output.first n
  | none => .ok (List.replicate n 0.0)

end Stage

namespace Graph

variable {τ : Type}

/-- Make the plan, unless the graph has one. -/
def prepare (graph : Graph τ) : Plan × Graph τ :=
  match graph.plan with
  | some plan => (plan, graph)
  | none =>
    let search := Search.complete graph.connections destination
    let plan := Plan.mk search.steps
    let cuts := search.cut.map fun c => Event.cycleCut c.source c.target
    (plan,
      { (graph.logAll (cuts ++ [.planRebuilt plan.steps.length])) with plan := some plan })

variable [TimeAxis τ]

/-- Render one chunk of frames and advance the clock by it. -/
def renderChunk (graph : Graph τ) (n : Nat) : Except Fault (List Float32 × Graph τ) := do
  let (plan, graph) := graph.prepare
  let stage ← Stage.run ⟨graph.rate, graph.now⟩ n ⟨graph.nodes, graph.outputs, graph.sums⟩ plan
  let samples ← stage.heard n
  .ok (samples,
    { graph with
      nodes := stage.nodes
      outputs := stage.outputs
      sums := stage.sums
      clock := graph.clock.advance n.toUInt64 })

/-- The chunks that a number of frames is rendered in: full ones, then the rest. -/
def chunks (n : Nat) : List Nat :=
  List.replicate (n / maxBlockSize) maxBlockSize ++
    if n % maxBlockSize = 0 then [] else [n % maxBlockSize]

/-- Render chunks one after another. -/
def renderChunks (graph : Graph τ) : List Nat → Except Fault (List Float32 × Graph τ)
  | [] => .ok ([], graph)
  | n :: rest => do
    let (samples, graph) ← graph.renderChunk n
    let (more, graph) ← renderChunks graph rest
    .ok (samples ++ more, graph)

/-- Render a number of frames. While the clock is suspended all of them are zero and
nothing moves. -/
def render (graph : Graph τ) (n : Nat) : Except Fault (List Float32 × Graph τ) :=
  if graph.clock.running then graph.renderChunks (chunks n)
  else .ok (List.replicate n 0.0, graph)

end Graph

end Patchbay
