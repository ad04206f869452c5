import Patchbay.Proofs.Graph.Chunks
import Patchbay.Wave.Transform

/-!
# Rendering in any division

Frames can be rendered in one go or divided in any way. Each frame of a chunk is taken at the time
at which the chunk begins plus its place in the chunk. Where this falls on the same side of every
armed time as the clock time of the frame, the division is not heard.
-/
namespace Patchbay

variable {τ : Type} [TimeAxis τ]

/-! ### Frames at other times -/

theorem Node.resting_frame (rate : Float32) (time : τ) (input modulation : Float32)
    (node : Node τ) : (node.frame rate time input modulation).2.resting = node.resting := by
  cases node with
  | generator g =>
    rw [Node.frame_generator]
    exact congrArg Node.generator (g.frame_rewound rate time modulation)
  | _ => rfl

/-- Once it has finished, a generator does not sound. -/
theorem Generator.isSounding_of_hasFinished {g : Generator τ} {time : τ}
    (finished : g.hasFinished time = true) : g.isSounding time = false := by
  unfold isSounding
  split
  · rw [finished, Bool.not_true, Bool.and_false]
  · rfl

/-- Times are alike for nodes that sound at both or at neither. -/
def SoundsAlike (nodes : NodeKey → Option (Node τ)) (time other : τ) : Prop :=
  ∀ key g, nodes key = some (.generator g) → g.isSounding time = g.isSounding other

section Frames

variable {rate : Float32} {time other : τ} {nodes : NodeKey → Option (Node τ)}

theorem SoundsAlike.frame (alike : SoundsAlike nodes time other) {key : NodeKey} {node : Node τ}
    (found : nodes key = some node) (input modulation : Float32) :
    node.frame rate time input modulation = node.frame rate other input modulation := by
  cases node with
  | generator g => simp only [Node.frame_generator, Generator.frame, alike key g found]
  | _ => rfl

theorem SoundsAlike.frameOf (alike : SoundsAlike nodes time other) (steps : List Step)
    (key : NodeKey) :
    frameOf rate time nodes steps key = Patchbay.frameOf rate other nodes steps key := by
  induction steps generalizing key with
  | nil => rfl
  | cons step earlier ih =>
    simp only [Patchbay.frameOf, ih]
    split
    · refine Option.map_congr fun node found => ?_
      exact alike.frame found _ _
    · rfl

theorem frameOf_resting {steps : List Step} {key : NodeKey} {sample : Float32} {moved : Node τ}
    (h : frameOf rate time nodes steps key = some (sample, moved)) :
    ∃ node, nodes key = some node ∧ moved.resting = node.resting := by
  induction steps with
  | nil => cases h
  | cons step earlier ih =>
    rw [frameOf] at h
    split at h
    · obtain ⟨node, found, frame⟩ := Option.map_eq_some_iff.mp h
      exact ⟨node, found, (congrArg (·.2.resting) frame).symm.trans (Node.resting_frame ..)⟩
    · exact ih h

/-- A frame moves the phases and nothing else. -/
theorem Plan.resting_advance (plan : Plan) (key : NodeKey) :
    (plan.advance nodes rate time key).map Node.resting = (nodes key).map Node.resting := by
  rw [Plan.advance]
  cases moved : frameOf rate time nodes plan.steps.reverse key with
  | none => rfl
  | some result =>
    obtain ⟨node, found, resting⟩ := frameOf_resting moved
    simp [found, resting]

end Frames

namespace Graph

/-! ### Frames at clock time -/

/-- The nodes after a number of frames, each taken at its clock time. -/
def nodesAfter (graph : Graph τ) : Nat → NodeKey → Option (Node τ)
  | 0 => graph.node?
  | i + 1 => graph.prepare.1.advance (graph.nodesAfter i) graph.rate (graph.clock.timeAt i.toUInt64)

/-- What is heard in a frame that is taken at its clock time. -/
def valueAfter (graph : Graph τ) (i : Nat) : Float32 :=
  graph.prepare.1.sample (graph.nodesAfter i) graph.rate (graph.clock.timeAt i.toUInt64) destination

/-- In a chunk that begins some frames ahead, the time of every frame within the block falls on
the same side of every armed start and stop as its clock time. -/
def InStep (graph : Graph τ) (start n : Nat) : Prop :=
  ∀ i < n, ∀ key g, graph.node? key = some (.generator g) →
    ∀ time, g.starts = some time ∨ g.stops = some time →
      (time ≤ Block.timeAt ⟨graph.rate, graph.clock.timeAt start.toUInt64⟩ i ↔
        time ≤ graph.clock.timeAt (start + i).toUInt64)

/-- Chunks in a row are in step with the clock. -/
def KeepsStep (graph : Graph τ) : Nat → List Nat → Prop
  | _, [] => True
  | start, n :: rest => graph.InStep start n ∧ graph.KeepsStep (start + n) rest

variable {graph after : Graph τ}

theorem resting_nodesAfter (graph : Graph τ) (i : Nat) (key : NodeKey) :
    (graph.nodesAfter i key).map Node.resting = (graph.node? key).map Node.resting := by
  induction i with
  | zero => rfl
  | succ i ih => exact (graph.prepare.1.resting_advance key).trans ih

/-- Generators keep their windows. -/
theorem window_nodesAfter {i : Nat} {key : NodeKey} {moved : Generator τ}
    (h : graph.nodesAfter i key = some (.generator moved)) :
    ∃ g, graph.node? key = some (.generator g) ∧ moved.starts = g.starts ∧
      moved.stops = g.stops := by
  have resting := graph.resting_nodesAfter i key
  rw [h, Option.map_some] at resting
  obtain ⟨node, lives, rests⟩ := Option.map_eq_some_iff.mp resting.symm
  obtain ⟨g, rfl, same⟩ := Node.exists_of_resting_eq rests
  exact ⟨g, lives, congrArg (·.starts) same.symm, congrArg (·.stops) same.symm⟩

theorem InStep.soundsAlike {start n : Nat} (h : graph.InStep start n) {i : Nat} (lt : i < n)
    (frames : Nat) : SoundsAlike (graph.nodesAfter frames)
      (Block.timeAt ⟨graph.rate, graph.clock.timeAt start.toUInt64⟩ i)
      (graph.clock.timeAt (start + i).toUInt64) := by
  intro key moved found
  obtain ⟨g, lives, starts, stops⟩ := window_nodesAfter found
  have compare := h i lt key g lives
  have finished : moved.hasFinished (Block.timeAt ⟨graph.rate, graph.clock.timeAt start.toUInt64⟩ i) =
      moved.hasFinished (graph.clock.timeAt (start + i).toUInt64) := by
    unfold Generator.hasFinished
    rw [stops]
    cases armed : g.stops with
    | none => rfl
    | some time => exact decide_eq_decide.mpr (compare time (.inr armed))
  unfold Generator.isSounding
  rw [starts, finished]
  cases armed : g.starts with
  | none => rfl
  | some time => simp only [compare time (.inl armed)]

/-! ### From chunk to chunk -/

/-- Chunks in a row are rendered one part of the row after another. -/
theorem renderChunks_append (graph : Graph τ) (sizes rest : List Nat) :
    graph.renderChunks (sizes ++ rest) = graph.renderChunks sizes >>= fun (samples, middle) =>
      middle.renderChunks rest >>= fun (more, last) => .ok (samples ++ more, last) := by
  induction sizes generalizing graph with
  | nil =>
    simp only [List.nil_append, renderChunks, bind, Except.bind]
    cases graph.renderChunks rest <;> rfl
  | cons n sizes ih =>
    simp only [List.cons_append, renderChunks, ih, bind, Except.bind]
    cases graph.renderChunk n with
    | error => rfl
    | ok result =>
      obtain ⟨first, middle⟩ := result
      dsimp only
      cases middle.renderChunks sizes with
      | error => rfl
      | ok result =>
        obtain ⟨second, next⟩ := result
        dsimp only
        cases next.renderChunks rest with
        | error => rfl
        | ok result => simp only [List.append_assoc]

/-- Once there is something to render, the plan is made. -/
theorem renderChunks_prepare (graph : Graph τ) (n : Nat) (rest : List Nat) :
    graph.prepare.2.renderChunks (n :: rest) = graph.renderChunks (n :: rest) := by
  simp only [renderChunks, renderChunk_prepare]

/-- Render a number of frames again and again. -/
def renderEach (graph : Graph τ) : List Nat → Except Fault (List Float32 × Graph τ)
  | [] => .ok ([], graph)
  | n :: rest => do
    let (samples, graph) ← graph.render n
    let (more, graph) ← renderEach graph rest
    .ok (samples ++ more, graph)

/-- A running graph renders all chunks in a row. -/
theorem renderEach_eq (running : graph.clock.running = true) (lengths : List Nat) :
    graph.renderEach lengths = graph.renderChunks (lengths.flatMap chunks) := by
  induction lengths generalizing graph with
  | nil => rfl
  | cons n rest ih =>
    rw [List.flatMap_cons, renderChunks_append, renderEach, render, if_pos running]
    cases rendered : graph.renderChunks (chunks n) with
    | error => rfl
    | ok result =>
      obtain ⟨samples, middle⟩ := result
      simp only [bind, Except.bind]
      rw [ih ((elapsed_renderChunks rendered).running.trans running)]

/-- A graph stands where a number of frames at clock time leads another one. -/
structure Reaches (graph : Graph τ) (frames : Nat) (after : Graph τ) : Prop where
  rest : after = { graph.prepare.2 with
    nodes := after.nodes
    outputs := after.outputs
    sums := after.sums
    clock := { graph.clock with frames := graph.clock.frames + frames.toUInt64 } }
  size : after.nodes.size = graph.nodes.size
  sized : after.outputs.size = graph.outputs.size
  node : after.node? = graph.nodesAfter frames

theorem reaches_prepare (graph : Graph τ) : graph.Reaches 0 graph.prepare.2 := by
  obtain ⟨journal, prepared⟩ := graph.prepare_snd
  constructor
  case rest =>
    have here : graph.clock.frames + (0 : Nat).toUInt64 = graph.clock.frames := UInt64.add_zero _
    rw [here, prepared]
  case size => rw [prepared]
  case sized => rw [prepared]
  case node =>
    rw [prepared]
    rfl

theorem Reaches.prepare (h : graph.Reaches start after) :
    after.prepare = (graph.prepare.1, after) := by
  obtain ⟨journal, prepared⟩ := graph.prepare_snd
  refine prepare_of_planned ?_
  rw [h.rest, prepared]

/-- In a chunk that is in step, the nodes go on as at clock time. -/
theorem InStep.nodesAt {start n : Nat} (h : graph.InStep start n) {i : Nat} (le : i ≤ n) :
    graph.prepare.1.nodesAt ⟨graph.rate, graph.clock.timeAt start.toUInt64⟩
      (graph.nodesAfter start) i = graph.nodesAfter (start + i) := by
  induction i with
  | zero => rfl
  | succ i ih =>
    funext key
    rw [Plan.nodesAt, ih (by omega), ← Nat.add_assoc, nodesAfter, Plan.advance, Plan.advance,
      (h.soundsAlike (by omega) (start + i)).frameOf]

theorem InStep.sampleAt {start n : Nat} (h : graph.InStep start n) {i : Nat} (lt : i < n) :
    graph.prepare.1.sampleAt ⟨graph.rate, graph.clock.timeAt start.toUInt64⟩
      (graph.nodesAfter start) i destination = graph.valueAfter (start + i) := by
  rw [Plan.sampleAt, h.nodesAt lt.le, Plan.sample, (h.soundsAlike lt (start + i)).frameOf]
  rfl

variable {start : Nat}

/-- A chunk that is in step gives the frames at clock time. -/
theorem Reaches.chunk (h : graph.Reaches start after) (running : graph.clock.running = true)
    (well : after.WellFormed) {n : Nat} (fits : n ≤ maxBlockSize)
    (in_step : graph.InStep start n) :
    ∃ last, after.renderChunk n =
      .ok ((List.range' start n).map graph.valueAfter, last) ∧ graph.Reaches (start + n) last := by
  obtain ⟨last, rendered, chunked⟩ := well.chunk fits
  have clock : after.clock = { graph.clock with frames := graph.clock.frames + start.toUInt64 } := by
    rw [h.rest]
  have block : after.block = ⟨graph.rate, graph.clock.timeAt start.toUInt64⟩ := by
    simp only [Graph.block, Graph.rate, Graph.now, clock, Clock.now_eq, Clock.timeAt]
  refine ⟨last, ?_, ?_⟩
  · rw [rendered, List.range'_eq_map_range, List.map_map]
    refine congrArg (fun samples => Except.ok (samples, last)) (List.map_congr_left fun i mem => ?_)
    simp only [Graph.sampleAt, h.prepare, block, h.node]
    exact in_step.sampleAt (List.mem_range.mp mem)
  · constructor
    case rest =>
      have advanced : after.clock.advance n.toUInt64 =
          { graph.clock with frames := graph.clock.frames + (start + n).toUInt64 } := by
        have sum : (start + n).toUInt64 = start.toUInt64 + n.toUInt64 := UInt64.ofNat_add start n
        simp only [clock, Clock.advance, running, if_true, sum, UInt64.add_assoc]
      rw [chunked.rest, h.prepare, advanced, h.rest]
    case size => exact chunked.size.trans h.size
    case sized => exact chunked.sized.trans h.sized
    case node =>
      funext key
      rw [chunked.node, h.prepare, block, h.node]
      exact congrFun (in_step.nodesAt le_rfl) key

/-- Chunks in a row that are in step give the frames at clock time. -/
theorem Reaches.renderChunks (h : graph.Reaches start after) (running : graph.clock.running = true)
    (well : after.WellFormed) {sizes : List Nat} (fits : ∀ n ∈ sizes, n ≤ maxBlockSize)
    (in_step : graph.KeepsStep start sizes) :
    ∃ last, after.renderChunks sizes =
      .ok ((List.range' start sizes.sum).map graph.valueAfter, last) ∧
      graph.Reaches (start + sizes.sum) last := by
  induction sizes generalizing start after with
  | nil => exact ⟨after, rfl, h⟩
  | cons n rest ih =>
    obtain ⟨first, later⟩ := in_step
    obtain ⟨middle, chunk, reached⟩ := h.chunk running well (fits n List.mem_cons_self) first
    obtain ⟨last, others, reached⟩ := ih reached (well.renderChunk chunk)
      (fun m mem => fits m (List.mem_cons_of_mem _ mem)) later
    rw [List.sum_cons]
    refine ⟨last, ?_, by rwa [← Nat.add_assoc]⟩
    simp only [Graph.renderChunks, chunk, others, bind, Except.bind]
    rw [← List.map_append, List.range'_append_1]

/-- Two graphs that frames at clock time lead to differ in nothing but their buffers. -/
theorem Reaches.sameButBuffers {frames : Nat} {other : Graph τ} (h : graph.Reaches frames after)
    (h' : graph.Reaches frames other) : after.SameButBuffers other := by
  have nodes : other.nodes = after.nodes :=
    nodes_eq_of_node? (h'.size.trans h.size.symm) fun key => by rw [h'.node, h.node]
  refine ⟨other.outputs, other.sums, h'.sized.trans h.sized.symm, ?_⟩
  rw [h'.rest, h.rest, nodes]

/-- However frames are divided into chunks, they give the same samples and lead to the same graph,
but for what is in its buffers. -/
theorem WellFormed.renderChunks_congr (well : graph.WellFormed)
    (running : graph.clock.running = true) {sizes others : List Nat}
    (fits : ∀ n ∈ sizes ++ others, 0 < n ∧ n ≤ maxBlockSize) (same : sizes.sum = others.sum)
    (in_step : graph.KeepsStep 0 sizes) (others_in_step : graph.KeepsStep 0 others) :
    ∃ samples divided whole, graph.renderChunks sizes = .ok (samples, divided) ∧
      graph.renderChunks others = .ok (samples, whole) ∧ whole.SameButBuffers divided := by
  have well' : graph.prepare.2.WellFormed := well.prepare
  -- without frames there is no chunk, and else the plan is made first
  cases sizes with
  | nil =>
    cases others with
    | nil => exact ⟨[], graph, graph, rfl, rfl, .refl graph⟩
    | cons m _ =>
      have positive := (fits m (by simp)).1
      simp only [List.sum_nil, List.sum_cons] at same
      omega
  | cons n rest =>
    cases others with
    | nil =>
      have positive := (fits n (by simp)).1
      simp only [List.sum_nil, List.sum_cons] at same
      omega
    | cons m others =>
      obtain ⟨divided, rendered, reached⟩ := graph.reaches_prepare.renderChunks running well'
        (fun n mem => (fits n (List.mem_append_left _ mem)).2) in_step
      obtain ⟨whole, rendered', reached'⟩ := graph.reaches_prepare.renderChunks running well'
        (fun n mem => (fits n (List.mem_append_right _ mem)).2) others_in_step
      rw [renderChunks_prepare] at rendered rendered'
      rw [← same] at rendered' reached'
      exact ⟨_, divided, whole, rendered, rendered', reached'.sameButBuffers reached⟩

/-- Frames that are rendered in parts of any lengths, with none and more than fit a chunk among
them, sound as if they were rendered in one go, lead to the same clock and the same phases, and
sound the same later on, as long as the chunks are in step with the clock. -/
theorem render_divided [Fourier] (reachable : graph.Reachable)
    (running : graph.clock.running = true)
    (lengths : List Nat) (in_step : graph.KeepsStep 0 (lengths.flatMap chunks))
    (whole_in_step : graph.KeepsStep 0 (chunks lengths.sum)) :
    ∃ samples divided whole, graph.renderEach lengths = .ok (samples, divided) ∧
      graph.render lengths.sum = .ok (samples, whole) ∧ divided.clock = whole.clock ∧
      (∀ key, divided.node? key = whole.node? key) ∧
      ∀ operations, divided.heard operations = whole.heard operations := by
  have well := reachable.wellFormed
  obtain ⟨samples, divided, whole, rendered, rendered', same⟩ :=
    well.renderChunks_congr running
      (fun n mem => by
        rcases List.mem_append.mp mem with mem | mem
        · obtain ⟨length, -, mem⟩ := List.mem_flatMap.mp mem
          exact ⟨pos_of_mem_chunks mem, le_of_mem_chunks mem⟩
        · exact ⟨pos_of_mem_chunks mem, le_of_mem_chunks mem⟩)
      (by rw [sum_flatMap_chunks, sum_chunks]) in_step whole_in_step
  refine ⟨samples, divided, whole, ?_, ?_, same.clock, same.node?, ?_⟩
  · rw [renderEach_eq running, rendered]
  · rw [render, if_pos running, rendered']
  · exact same.heard_eq (well.renderChunks rendered') (well.renderChunks rendered)

/-- Where frames add up exactly, every chunk is in step. -/
theorem inStep_of_exact (exact : ∀ a b, (TimeAxis.ofFrames (a + b) graph.rate : τ) =
    TimeAxis.ofFrames a graph.rate + TimeAxis.ofFrames b graph.rate) (start n : Nat) :
    graph.InStep start n := by
  intro i _ key g _ time _
  have sum : (start + i).toUInt64 = start.toUInt64 + i.toUInt64 := UInt64.ofNat_add start i
  have same : Block.timeAt ⟨graph.rate, graph.clock.timeAt start.toUInt64⟩ i =
      (graph.clock.timeAt (start + i).toUInt64 : τ) := by
    rw [Block.timeAt, Clock.timeAt, Clock.timeAt, sum, ← UInt64.add_assoc]
    exact (exact (graph.clock.frames + start.toUInt64) i.toUInt64).symm
  rw [same]

theorem keepsStep_of_exact (exact : ∀ a b, (TimeAxis.ofFrames (a + b) graph.rate : τ) =
    TimeAxis.ofFrames a graph.rate + TimeAxis.ofFrames b graph.rate) (start : Nat)
    (sizes : List Nat) : graph.KeepsStep start sizes := by
  induction sizes generalizing start with
  | nil => trivial
  | cons n rest ih => exact ⟨inStep_of_exact exact start n, ih (start + n)⟩

end Graph

/-- Time as a count of frames, which add up exactly. -/
structure Ticks where
  count : UInt64

instance : TimeAxis Ticks where
  zero := ⟨0⟩
  add a b := ⟨a.count + b.count⟩
  sub a b := ⟨a.count - b.count⟩
  le a b := a.count ≤ b.count
  lt a b := a.count < b.count
  ofFrames frames _ := ⟨frames⟩
  decLE a b := inferInstanceAs (Decidable (a.count ≤ b.count))
  decLT a b := inferInstanceAs (Decidable (a.count < b.count))

namespace Graph

/-- A running graph with a generator that sounds from the second frame to the fourth. -/
def blip : Graph Ticks :=
  [.addGenerator ⟨0, ⟨#[1.0, -1.0]⟩⟩, .connect 1 0 .audio, .armStart 1 ⟨1⟩, .armStop 1 ⟨4⟩,
    .resume].foldl perform (atRate 1000.0)

theorem render_divided_blip : blip.Reachable ∧ blip.clock.running = true ∧
    (∃ g, blip.node? 1 = some (.generator g) ∧ g.starts = some ⟨1⟩ ∧ g.stops = some ⟨4⟩) ∧
    blip.KeepsStep 0 ([1, 0, 2500].flatMap chunks) ∧ blip.KeepsStep 0 (chunks [1, 0, 2500].sum) ∧
    ∃ samples divided whole, blip.renderEach [1, 0, 2500] = .ok (samples, divided) ∧
      blip.render 2501 = .ok (samples, whole) ∧ divided.clock = whole.clock ∧
      ∀ key, divided.node? key = whole.node? key := by
  have reachable : blip.Reachable := Reachable.run (.create _) _
  have running : blip.clock.running = true := rfl
  have in_step : blip.KeepsStep 0 ([1, 0, 2500].flatMap chunks) :=
    keepsStep_of_exact (fun _ _ => rfl) _ _
  have whole_in_step : blip.KeepsStep 0 (chunks [1, 0, 2500].sum) :=
    keepsStep_of_exact (fun _ _ => rfl) _ _
  obtain ⟨samples, divided, whole, rendered, rendered', clock, nodes, -⟩ :=
    render_divided reachable running [1, 0, 2500] in_step whole_in_step
  exact ⟨reachable, running, ⟨_, rfl, rfl, rfl⟩, in_step, whole_in_step,
    samples, divided, whole, rendered, rendered', clock, nodes⟩

end Graph

end Patchbay
