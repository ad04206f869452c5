import Patchbay.Proofs.Graph.Rendering

/-!
# What a chunk leaves

A chunk moves the nodes of the plan frame by frame, fills their buffers and advances the clock.
What the buffers held before is not heard, in this chunk or in anything that comes later.
-/
namespace Patchbay.Graph

variable {τ : Type} [TimeAxis τ]

/-- The block of the chunk that a graph renders next. -/
def block (graph : Graph τ) : Block τ :=
  ⟨graph.rate, graph.now⟩

/-- The sample of a node in a frame of the next chunk. -/
def sampleAt (graph : Graph τ) : Nat → NodeKey → Float32 :=
  graph.prepare.1.sampleAt graph.block graph.node?

/-- What a chunk of frames leaves of a graph. -/
structure Chunked (graph : Graph τ) (n : Nat) (after : Graph τ) : Prop where
  rest : after = { graph.prepare.2 with
    nodes := after.nodes
    outputs := after.outputs
    sums := after.sums
    clock := graph.clock.advance n.toUInt64 }
  size : after.nodes.size = graph.nodes.size
  sized : after.outputs.size = graph.outputs.size
  node : ∀ key, after.node? key = graph.prepare.1.nodesAt graph.block graph.node? n key
  buffer : ∀ key ∈ graph.prepare.1.keys, ∃ buffer, after.outputs[key]? = some buffer ∧
    buffer.Holds n fun i => graph.sampleAt i key

omit [TimeAxis τ] in
theorem prepare_of_planned {graph : Graph τ} {plan : Plan} (h : graph.plan = some plan) :
    graph.prepare = (plan, graph) := by
  simp only [prepare, h]

omit [TimeAxis τ] in
/-- A graph makes its plan once. -/
theorem prepare_prepare (graph : Graph τ) :
    graph.prepare.2.prepare = (graph.prepare.1, graph.prepare.2) := by
  obtain ⟨journal, prepared⟩ := graph.prepare_snd
  refine prepare_of_planned ?_
  rw [prepared]

omit [TimeAxis τ] in
theorem WellFormed.prepare {graph : Graph τ} (h : graph.WellFormed) :
    graph.prepare.2.WellFormed := by
  obtain ⟨journal, prepared⟩ := graph.prepare_snd
  rw [prepared]
  refine h.of_same (fun _ => rfl) rfl h.buffered fun plan kept => .inr ?_
  rw [← Option.some.inj kept, h.prepare_fst]

theorem renderChunk_prepare (graph : Graph τ) (n : Nat) :
    graph.prepare.2.renderChunk n = graph.renderChunk n := by
  unfold renderChunk
  rw [prepare_prepare]

omit [TimeAxis τ] in
theorem WellFormed.planned_lives {graph : Graph τ} (h : graph.WellFormed) {key : NodeKey}
    (planned : key ∈ graph.prepare.1.keys) : (graph.node? key).isSome :=
  h.lives_of_path ((h.orders.reached key).mp planned)

omit [TimeAxis τ] in
theorem WellFormed.destination_planned {graph : Graph τ} (h : graph.WellFormed) :
    destination ∈ graph.prepare.1.keys :=
  List.mem_of_getLast? h.orders.last

/-- A chunk that fits the buffers comes to its end. -/
theorem WellFormed.chunk {graph : Graph τ} (h : graph.WellFormed) {n : Nat}
    (fits : n ≤ maxBlockSize) :
    ∃ after, graph.renderChunk n =
      .ok ((List.range n).map fun i => graph.sampleAt i destination, after) ∧
      graph.Chunked n after := by
  obtain ⟨stage, run, rendered⟩ := Stage.Rendered.run graph.block
    ⟨graph.nodes, graph.outputs, graph.sums⟩ h.orders.once h.orders.earlier h.buffered fits
    fun key => h.planned_lives
  obtain ⟨journal, prepared⟩ := graph.prepare_snd
  obtain ⟨buffer, has_output, holds⟩ := rendered.buffer destination h.destination_planned
  have heard : stage.heard n = .ok ((List.range n).map fun i => graph.sampleAt i destination) := by
    simp only [Stage.heard, has_output]
    exact holds.first fits
  refine ⟨{ graph.prepare.2 with
      nodes := stage.nodes
      outputs := stage.outputs
      sums := stage.sums
      clock := graph.clock.advance n.toUInt64 }, ?_, ?_⟩
  · rw [Graph.renderChunk]
    simp only [prepared, Fault.bind_ok_iff]
    exact ⟨stage, run, _, heard, rfl⟩
  · constructor
    case rest => rfl
    case size => exact rendered.nodes_size
    case sized => exact rendered.outputs_size
    case node =>
      intro key
      by_cases planned : key ∈ graph.prepare.1.keys
      · exact rendered.node key planned
      · exact (congrArg Option.join (rendered.untouched key planned).1).trans
          (nodesAt_of_not_mem graph.block graph.node? planned n).symm
    case buffer =>
      intro key planned
      obtain ⟨buffer, found, holds⟩ := rendered.buffer key planned
      refine ⟨buffer, ?_, holds⟩
      rw [Stage.output?] at found
      split at found
      · exact found
      · cases found

/-! ### Old samples are not heard -/

/-- Two graphs differ in nothing but what their buffers hold. -/
def SameButBuffers (a b : Graph τ) : Prop :=
  ∃ outputs sums, outputs.size = a.outputs.size ∧ b = { a with outputs, sums }

omit [TimeAxis τ] in
theorem nodes_eq_of_node? {a b : Graph τ} (size : a.nodes.size = b.nodes.size)
    (same : ∀ key, a.node? key = b.node? key) : a.nodes = b.nodes := by
  refine Array.ext size fun key lt lt' => ?_
  have joined := same key
  simpa only [node?, Array.getElem?_eq_getElem lt, Array.getElem?_eq_getElem lt',
    Option.join_some] using joined

namespace SameButBuffers

variable {a b c : Graph τ}

omit [TimeAxis τ]

theorem refl (a : Graph τ) : a.SameButBuffers a :=
  ⟨a.outputs, a.sums, rfl, rfl⟩

theorem node? (h : a.SameButBuffers b) (key : NodeKey) : b.node? key = a.node? key := by
  obtain ⟨outputs, sums, -, rfl⟩ := h
  rfl

theorem clock (h : a.SameButBuffers b) : b.clock = a.clock := by
  obtain ⟨outputs, sums, -, rfl⟩ := h
  rfl

theorem prepare (h : a.SameButBuffers b) :
    b.prepare.1 = a.prepare.1 ∧ a.prepare.2.SameButBuffers b.prepare.2 := by
  obtain ⟨outputs, sums, sized, rfl⟩ := h
  cases kept : a.plan with
  | some plan =>
    rw [prepare_of_planned kept, prepare_of_planned rfl]
    exact ⟨rfl, outputs, sums, sized, by rw [kept]⟩
  | none =>
    simp only [Graph.prepare, kept]
    refine ⟨trivial, outputs, sums, by simpa using sized, ?_⟩
    simp only [logAll_eq]

variable [TimeAxis τ]

/-- A chunk sounds the same whatever the buffers held, and so does all that comes after it. -/
theorem renderChunk (h : a.SameButBuffers b) (well : a.WellFormed) (well' : b.WellFormed) {n : Nat}
    (fits : n ≤ maxBlockSize) :
    ∃ samples after after', a.renderChunk n = .ok (samples, after) ∧
      b.renderChunk n = .ok (samples, after') ∧ after.SameButBuffers after' := by
  obtain ⟨after, rendered, chunked⟩ := well.chunk fits
  obtain ⟨after', rendered', chunked'⟩ := well'.chunk fits
  obtain ⟨plan, outputs, sums, sized, prepared⟩ := h.prepare
  have nodes : b.node? = a.node? := funext h.node?
  have block : b.block = a.block := by simp only [Graph.block, Graph.rate, Graph.now, h.clock]
  have samples : b.sampleAt = a.sampleAt := by simp only [Graph.sampleAt, plan, nodes, block]
  have moved : after'.nodes = after.nodes := by
    refine nodes_eq_of_node? ?_ fun key => ?_
    · obtain ⟨_, _, -, rfl⟩ := h
      exact chunked'.size.trans chunked.size.symm
    · rw [chunked'.node, chunked.node, plan, nodes, block]
  refine ⟨_, after, after', rendered, samples ▸ rendered', after'.outputs, after'.sums, ?_, ?_⟩
  · obtain ⟨_, _, same_size, rfl⟩ := h
    exact chunked'.sized.trans (same_size.trans chunked.sized.symm)
  · rw [chunked'.rest, chunked.rest, prepared, moved, h.clock]

theorem renderChunks (h : a.SameButBuffers b) (well : a.WellFormed) (well' : b.WellFormed)
    {sizes : List Nat} (fits : ∀ n ∈ sizes, n ≤ maxBlockSize) :
    ∃ samples after after', a.renderChunks sizes = .ok (samples, after) ∧
      b.renderChunks sizes = .ok (samples, after') ∧ after.SameButBuffers after' := by
  induction sizes generalizing a b with
  | nil => exact ⟨[], a, b, rfl, rfl, h⟩
  | cons n rest ih =>
    obtain ⟨samples, middle, middle', chunk, chunk', h⟩ :=
      h.renderChunk well well' (fits n List.mem_cons_self)
    obtain ⟨more, after, after', others, others', h⟩ :=
      ih h (well.renderChunk chunk) (well'.renderChunk chunk')
        fun m mem => fits m (List.mem_cons_of_mem _ mem)
    refine ⟨samples ++ more, after, after', ?_, ?_, h⟩
    · exact renderChunks_cons.mpr ⟨_, _, _, chunk, others, rfl⟩
    · exact renderChunks_cons.mpr ⟨_, _, _, chunk', others', rfl⟩

end SameButBuffers

namespace SameButBuffers

variable {a b : Graph τ}

theorem render (h : a.SameButBuffers b) (well : a.WellFormed) (well' : b.WellFormed) (n : Nat) :
    ∃ samples after after', a.render n = .ok (samples, after) ∧
      b.render n = .ok (samples, after') ∧ after.SameButBuffers after' := by
  unfold Graph.render
  rw [h.clock]
  split
  · exact h.renderChunks well well' fun size => le_of_mem_chunks
  · exact ⟨_, a, b, rfl, rfl, h⟩

theorem perform [Fourier] (h : a.SameButBuffers b) (well : a.WellFormed) (well' : b.WellFormed)
    (operation : Operation τ) : (a.perform operation).SameButBuffers (b.perform operation) := by
  cases operation with
  | render n =>
    obtain ⟨samples, after, after', rendered, rendered', h⟩ := h.render well well' n
    simp only [Graph.perform, rendered, rendered']
    exact h
  | addGenerator | addGain | addConstant =>
    obtain ⟨outputs, sums, sized, rfl⟩ := h
    refine ⟨outputs.push .blank, sums, ?_, rfl⟩
    simp [Graph.perform, addGenerator, addGain, addConstant, Graph.add, sized]
  | setValue =>
    obtain ⟨outputs, sums, sized, rfl⟩ := h
    simp only [Graph.perform, setValue, Graph.node?, replace]
    split <;> exact ⟨outputs, sums, sized, rfl⟩
  | connect =>
    obtain ⟨outputs, sums, sized, rfl⟩ := h
    have same : ({ a with outputs, sums } : Graph τ).admits = a.admits := rfl
    simp only [Graph.perform, connect, same]
    split
    · split <;> exact ⟨outputs, sums, sized, rfl⟩
    · exact ⟨outputs, sums, sized, rfl⟩
  | armStart | armStop =>
    obtain ⟨outputs, sums, sized, rfl⟩ := h
    simp only [Graph.perform, armStart, armStop, modifyGenerator, generator?, Graph.node?, replace]
    split <;> exact ⟨outputs, sums, sized, rfl⟩
  | remove =>
    obtain ⟨outputs, sums, sized, rfl⟩ := h
    have same : ({ a with outputs, sums } : Graph τ).contains = a.contains := rfl
    simp only [Graph.perform, Graph.remove, same]
    split <;> exact ⟨outputs, sums, sized, rfl⟩
  | disconnect | disconnectInlet | resume | suspend | synthesize =>
    obtain ⟨outputs, sums, sized, rfl⟩ := h
    exact ⟨outputs, sums, sized, rfl⟩

end SameButBuffers

/-- To render a well-formed graph comes to its end. -/
theorem WellFormed.exists_render {graph : Graph τ} (well : graph.WellFormed) (n : Nat) :
    ∃ samples after, graph.render n = .ok (samples, after) := by
  obtain ⟨samples, after, -, rendered, -⟩ := (SameButBuffers.refl graph).render well well n
  exact ⟨samples, after, rendered⟩

/-- What is heard while operations are done: the samples of each rendering. -/
def heard [Fourier] (graph : Graph τ) : List (Operation τ) → List (Except Fault (List Float32))
  | [] => []
  | .render n :: rest => (graph.render n).map (·.1) :: (graph.perform (.render n)).heard rest
  | operation :: rest => (graph.perform operation).heard rest

theorem SameButBuffers.heard_eq [Fourier] {a b : Graph τ} (h : a.SameButBuffers b)
    (well : a.WellFormed) (well' : b.WellFormed) (operations : List (Operation τ)) :
    b.heard operations = a.heard operations := by
  induction operations generalizing a b with
  | nil => rfl
  | cons operation rest ih =>
    have later := ih (h.perform well well' operation) (well.perform operation)
      (well'.perform operation)
    cases operation with
    | render n =>
      obtain ⟨samples, after, after', rendered, rendered', -⟩ := h.render well well' n
      rw [heard, heard, later, rendered, rendered']
      rfl
    | _ => exact later

/-! ### The signals of nodes -/

/-- What a node gave in the chunk that was rendered last. -/
def given (graph : Graph τ) (n : Nat) (key : NodeKey) : Except Fault (List Float32) :=
  match (Stage.mk graph.nodes graph.outputs graph.sums).output? key with
  | some buffer => buffer.first n
  | none => .ok []

/-- For each chunk, the frames of each of some nodes. -/
abbrev Signals : Type := List (List (List Float32))

/-- What some nodes give while chunks are rendered. -/
def signals (graph : Graph τ) (keys : List NodeKey) : List Nat → Except Fault Signals
  | [] => .ok []
  | n :: rest => do
    let (_, after) ← graph.renderChunk n
    let chunk ← keys.mapM (after.given n)
    let more ← after.signals keys rest
    .ok (chunk :: more)

/-- A planned node gives its samples. -/
theorem Chunked.given_eq {graph after : Graph τ} {n : Nat} {key : NodeKey}
    (chunked : graph.Chunked n after) (fits : n ≤ maxBlockSize)
    (lives : after.contains key) (planned : key ∈ graph.prepare.1.keys) :
    after.given n key = .ok ((List.range n).map fun i => graph.sampleAt i key) := by
  obtain ⟨buffer, found, holds⟩ := chunked.buffer key planned
  have alive : after.nodes[key]?.join.isSome := lives
  simp only [given, Stage.output?, alive, if_true, found]
  exact holds.first fits

end Patchbay.Graph
