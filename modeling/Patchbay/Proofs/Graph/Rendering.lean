import Patchbay.Proofs.Graph.Evaluation
import Patchbay.Wave.Transform

/-!
# Chunks are their frames

Rendering goes node by node over buffers that hold old samples. It gives what the evaluation
frame by frame gives. Once the steps before a node are rendered, the buffers of all nodes that
feed it hold their samples of this chunk, and no step writes to any other buffer.
-/
namespace Patchbay

namespace Buffer

/-- The first frames of the buffer hold a signal. -/
def Holds (n : Nat) (signal : Nat → Float32) (buffer : Buffer) : Prop :=
  buffer.samples.take n = (List.range n).map signal

variable {n : Nat} {signal other : Nat → Float32} {buffer : Buffer}

theorem take_lay (buffer : Buffer) (samples : List Float32)
    (fits : samples.length ≤ maxBlockSize) :
    (buffer.lay samples).samples.take samples.length = samples := by
  have whole : samples.take buffer.samples.length = samples :=
    List.take_of_length_le (buffer.length_samples ▸ fits)
  simp [lay, Node.overlay, whole]

theorem holds_lay (buffer : Buffer) (signal : Nat → Float32) (fits : n ≤ maxBlockSize) :
    (buffer.lay ((List.range n).map signal)).Holds n signal := by
  have taken := buffer.take_lay ((List.range n).map signal) (by simpa using fits)
  rwa [List.length_map, List.length_range] at taken

theorem Holds.first (holds : buffer.Holds n signal) (fits : n ≤ maxBlockSize) :
    buffer.first n = .ok ((List.range n).map signal) := by
  rw [Buffer.first, if_pos fits, holds]

theorem length_first {samples : List Float32} (h : buffer.first n = .ok samples) :
    samples.length = n := by
  unfold Buffer.first at h
  split at h
  · cases h
    rw [List.length_take, buffer.length_samples]
    omega
  · cases h

theorem clear_holds (buffer : Buffer) (fits : n ≤ maxBlockSize) :
    ∃ cleared, buffer.clear n = .ok cleared ∧ cleared.Holds n fun _ => 0.0 := by
  refine ⟨_, if_pos fits, ?_⟩
  have zeros : List.replicate n (0.0 : Float32) = (List.range n).map fun _ => 0.0 := by simp
  rw [zeros]
  exact buffer.holds_lay _ fits

theorem Holds.mix (holds : buffer.Holds n signal) (fits : n ≤ maxBlockSize) :
    (buffer.mix ((List.range n).map other)).Holds n fun i => signal i + other i := by
  have sums : List.zipWith (· + ·) buffer.samples ((List.range n).map other) =
      (List.range n).map fun i => signal i + other i := by
    have cut : List.zipWith (· + ·) buffer.samples ((List.range n).map other) =
        List.zipWith (· + ·) (buffer.samples.take n) ((List.range n).map other) := by
      have short : ((List.range n).map other).length = n := by simp
      rw [List.zipWith_eq_zipWith_take_min, buffer.length_samples, short, Nat.min_eq_right fits,
        List.take_of_length_le (Nat.le_of_eq short)]
    rw [cut, holds]
    simp
  rw [Buffer.mix, sums]
  exact buffer.holds_lay _ fits

end Buffer

/-- What is added up for a node holds the signals of its input and of its knob. -/
def Sums.Holds (n : Nat) (input modulation : Nat → Float32) (sums : Sums) : Prop :=
  sums.input.Holds n input ∧ sums.modulation.Holds n modulation

/-! ### One node over a chunk -/

section Node

variable {τ : Type} [TimeAxis τ] (block : Block τ) (input modulation : Nat → Float32)

theorem Node.after_gain (factor : Float32) (i : Nat) :
    (Node.gain factor).after block input modulation i = .gain factor := by
  induction i with
  | zero => rfl
  | succ i ih => rw [Node.after, ih, Node.frame]

theorem Node.after_constant (level : Float32) (i : Nat) :
    (Node.constant level).after block input modulation i = .constant level := by
  induction i with
  | zero => rfl
  | succ i ih => rw [Node.after, ih, Node.frame]

theorem Node.after_destination (i : Nat) :
    (Node.destination).after block input modulation i = .destination := by
  induction i with
  | zero => rfl
  | succ i ih => rw [Node.after, ih, Node.frame]

/-- A generator that goes on from any frame plays the frames of its node from there. -/
theorem Generator.run_eq (node : Node τ) {generator : Generator τ} (index : Nat)
    (here : node.after block input modulation index = .generator generator) (count : Nat) :
    ∃ moved, node.after block input modulation (index + count) = .generator moved ∧
      generator.run block index ((List.range' index count).map modulation) =
        ((List.range' index count).map (node.sampleAt block input modulation), moved) := by
  induction count generalizing generator index with
  | zero => exact ⟨generator, here, rfl⟩
  | succ count ih =>
    have next : node.after block input modulation (index + 1) =
        .generator (generator.frame block.rate (block.timeAt index) (modulation index)).2 := by
      rw [Node.after, here, Node.frame_generator]
    have sample : node.sampleAt block input modulation index =
        (generator.frame block.rate (block.timeAt index) (modulation index)).1 := by
      rw [Node.sampleAt, here, Node.frame_generator]
    obtain ⟨moved, after, run⟩ := ih (index + 1) next
    refine ⟨moved, ?_, ?_⟩
    · rwa [← Nat.add_assoc, Nat.add_right_comm]
    · simp only [List.range'_succ, List.map_cons, Generator.run, run, sample]

/-- Over a chunk a node gives its samples frame by frame. -/
theorem Node.process_eq (node : Node τ) {n : Nat} {out : List Float32} (length : out.length = n) :
    node.process block ((List.range n).map input) ((List.range n).map modulation) out =
      .ok (node.after block input modulation n,
        (List.range n).map (node.sampleAt block input modulation)) := by
  have whole (signal : Nat → Float32) :
      Node.overlay ((List.range n).map signal) out = (List.range n).map signal :=
    Node.overlay_eq (by simp [length])
  cases node with
  | generator generator =>
    obtain ⟨moved, after, run⟩ :=
      Generator.run_eq block input modulation (.generator generator) 0 rfl n
    rw [Nat.zero_add] at after
    rw [← List.range_eq_range'] at run
    have taken : ((List.range n).map modulation).take out.length = (List.range n).map modulation :=
      List.take_of_length_le (by simp [length])
    simp only [Node.process, taken, run, whole, after]
  | gain factor =>
    have samples : (Node.gain factor).sampleAt block input modulation =
        fun i => input i * (factor + modulation i) := by
      funext i
      rw [Node.sampleAt, Node.after_gain, Node.frame]
    have products : List.zipWith (fun sample m => sample * (factor + m))
        ((List.range n).map input) ((List.range n).map modulation) =
          (List.range n).map fun i => input i * (factor + modulation i) := by simp
    rw [Node.process, products, whole, samples, Node.after_gain]
  | constant level =>
    have samples : (Node.constant level).sampleAt block input modulation =
        fun i => level + modulation i := by
      funext i
      rw [Node.sampleAt, Node.after_constant, Node.frame]
    have shifted : ((List.range n).map modulation).map (level + ·) =
        (List.range n).map fun i => level + modulation i := by simp
    rw [Node.process, shifted, whole, samples, Node.after_constant]
  | destination =>
    have samples : (Node.destination).sampleAt block input modulation = input := by
      funext i
      rw [Node.sampleAt, Node.after_destination, Node.frame]
    rw [Node.process, if_pos (by simp [length]), samples, Node.after_destination]

end Node

/-! ### One step -/

namespace Stage

variable {τ : Type} {stage : Stage τ} {n : Nat}

/-- The node under a key, while it lives. -/
def node? (stage : Stage τ) (key : NodeKey) : Option (Node τ) :=
  stage.nodes[key]?.join

/-- Where each link mixes in its signal, the sums are in the end those over all links. -/
theorem foldlM_holds {signal : Nat → NodeKey → Float32} (fits : n ≤ maxBlockSize)
    {step : Sums → Link → Except Fault Sums} {links : List Link}
    (mixes : ∀ sums, ∀ link ∈ links, step sums link =
      .ok (sums.mix link.inlet ((List.range n).map fun i => signal i link.source)))
    {sums : Sums} {input modulation : Nat → Float32} (holds : sums.Holds n input modulation) :
    ∃ result, links.foldlM step sums = .ok result ∧
      result.Holds n
        (fun i => (links.filter (·.inlet == .audio)).foldl
          (fun sum link => sum + signal i link.source) (input i))
        (fun i => (links.filter (·.inlet != .audio)).foldl
          (fun sum link => sum + signal i link.source) (modulation i)) := by
  induction links generalizing sums input modulation with
  | nil => exact ⟨sums, rfl, holds⟩
  | cons link rest ih =>
    have later {sums : Sums} {input modulation : Nat → Float32}
        (holds : sums.Holds n input modulation) :=
      ih (fun sums other mem => mixes sums other (List.mem_cons_of_mem _ mem)) holds
    rw [List.foldlM_cons, mixes sums link List.mem_cons_self]
    obtain ⟨holds_input, holds_modulation⟩ := holds
    cases inlet : link.inlet with
    | audio =>
      have mixed : (sums.mix .audio ((List.range n).map fun i => signal i link.source)).Holds n
          (fun i => input i + signal i link.source) modulation :=
        ⟨holds_input.mix fits, holds_modulation⟩
      simpa [inlet, bind, Except.bind] using later mixed
    | knob knob =>
      have mixed : (sums.mix (.knob knob) ((List.range n).map fun i => signal i link.source)).Holds n
          input (fun i => modulation i + signal i link.source) :=
        ⟨holds_input, holds_modulation.mix fits⟩
      simpa [inlet, bind, Except.bind] using later mixed

/-- Signals are added up link by link, as in the evaluation of each frame. -/
theorem gather_spec (signal : Nat → NodeKey → Float32) {links : List Link}
    (fits : n ≤ maxBlockSize)
    (heard : ∀ link ∈ links, ∃ buffer, stage.output? link.source = some buffer ∧
      buffer.Holds n fun i => signal i link.source) :
    ∃ sums, stage.gather n links = .ok sums ∧
      sums.Holds n (fun i => total (signal i) (links.filter (·.inlet == .audio)))
        (fun i => total (signal i) (links.filter (·.inlet != .audio))) := by
  obtain ⟨input, cleared_input, no_input⟩ := stage.sums.input.clear_holds fits
  obtain ⟨modulation, cleared_modulation, no_modulation⟩ := stage.sums.modulation.clear_holds fits
  have cleared : stage.sums.clear n = .ok ⟨input, modulation⟩ := by
    simp only [Sums.clear, cleared_input, cleared_modulation]
    rfl
  unfold gather
  rw [cleared]
  refine foldlM_holds fits (fun sums link mem => ?_) ⟨no_input, no_modulation⟩
  obtain ⟨buffer, found, sounds⟩ := heard link mem
  simp only [found, sounds.first fits]
  rfl

variable [TimeAxis τ] {block : Block τ}

/-- Where its sources are heard, a step moves its node over the chunk and lays down its samples. -/
theorem step_eq {next : Step} {node : Node τ} (value : Nat → NodeKey → Float32)
    (fits : n ≤ maxBlockSize) (found : stage.node? next.key = some node)
    (lt : next.key < stage.outputs.size)
    (heard : ∀ link ∈ next.inputs, ∃ buffer, stage.output? link.source = some buffer ∧
      buffer.Holds n fun i => value i link.source) :
    let input := fun i => total (value i) next.audio
    let modulation := fun i => total (value i) next.modulation
    ∃ sums, stage.step block n next = .ok {
      nodes := stage.nodes.setIfInBounds next.key (some (node.after block input modulation n))
      outputs := stage.outputs.setIfInBounds next.key (stage.outputs[next.key].lay
        ((List.range n).map (node.sampleAt block input modulation)))
      sums } := by
  intro input modulation
  obtain ⟨sums, gathered, holds_input, holds_modulation⟩ := gather_spec value fits heard
  have here : stage.nodes[next.key]?.join = some node := found
  have has_output : stage.outputs[next.key]? = some stage.outputs[next.key] :=
    Array.getElem?_eq_getElem lt
  have out : stage.outputs[next.key].first n = .ok (stage.outputs[next.key].samples.take n) :=
    if_pos fits
  have processed := node.process_eq block input modulation (Buffer.length_first out)
  refine ⟨sums, ?_⟩
  simp only [Stage.step, gathered, bind, Except.bind, here, has_output]
  rw [holds_input.first fits, holds_modulation.first fits, out]
  simp only [input, modulation, Step.audio, Step.modulation] at processed ⊢
  rw [processed]

/-- After some steps of a plan: their nodes and buffers stand where the frames lead them, and
all others as at the start. -/
structure Rendered (plan : Plan) (block : Block τ) (n : Nat) (start : Stage τ)
    (done : List Step) (stage : Stage τ) : Prop where
  nodes_size : stage.nodes.size = start.nodes.size
  outputs_size : stage.outputs.size = start.outputs.size
  node : ∀ key ∈ done.map (·.key), stage.node? key = plan.nodesAt block start.node? n key
  buffer : ∀ key ∈ done.map (·.key), ∃ buffer, stage.output? key = some buffer ∧
    buffer.Holds n fun i => plan.sampleAt block start.node? i key
  untouched : ∀ key ∉ done.map (·.key),
    stage.nodes[key]? = start.nodes[key]? ∧ stage.outputs[key]? = start.outputs[key]?

variable {plan : Plan} {start : Stage τ}

/-- The next step of a plan renders its node. -/
theorem Rendered.step (once : plan.keys.Nodup)
    (earlier : ∀ before step after, plan.steps = before ++ step :: after →
      ∀ link ∈ step.inputs, link.source ∈ before.map (·.key))
    (sized : start.outputs.size = start.nodes.size) (fits : n ≤ maxBlockSize)
    {before after : List Step} {next : Step} (split : plan.steps = before ++ next :: after)
    (lives : (start.node? next.key).isSome) (rendered : Rendered plan block n start before stage) :
    ∃ stepped, stage.step block n next = .ok stepped ∧
      Rendered plan block n start (before ++ [next]) stepped := by
  obtain ⟨node, found⟩ := Option.isSome_iff_exists.mp lives
  have keys : plan.keys = before.map (·.key) ++ next.key :: after.map (·.key) := by
    simp [Plan.keys, split]
  have new : next.key ∉ before.map (·.key) := by
    rw [keys] at once
    exact fun again => (List.nodup_append.mp once).2.2 _ again _ List.mem_cons_self rfl
  have mem : next ∈ plan.steps := by simp [split]
  have here : stage.node? next.key = some node :=
    (congrArg Option.join (rendered.untouched next.key new).1).trans found
  have lt : next.key < stage.nodes.size := by
    refine Nat.lt_of_not_le fun outside => ?_
    simp [Stage.node?, Array.getElem?_eq_none outside] at here
  have lt_outputs : next.key < stage.outputs.size := by
    rw [rendered.outputs_size, sized, ← rendered.nodes_size]
    exact lt
  obtain ⟨sums, stepped⟩ := step_eq (plan.sampleAt block start.node?) fits here lt_outputs
    fun link listed => rendered.buffer link.source (earlier before next after split link listed)
  have samples : node.sampleAt block
      (fun i => total (plan.sampleAt block start.node? i) next.audio)
      (fun i => total (plan.sampleAt block start.node? i) next.modulation) =
        fun i => plan.sampleAt block start.node? i next.key := by
    funext i
    exact (sampleAt_step once earlier mem found i).symm
  rw [samples] at stepped
  refine ⟨_, stepped, ?_⟩
  constructor
  case nodes_size => simp [rendered.nodes_size]
  case outputs_size => simp [rendered.outputs_size]
  case node =>
    intro key done
    by_cases at_next : next.key = key
    · subst at_next
      rw [nodesAt_step once earlier mem found]
      simp [Stage.node?, lt]
    · have done : key ∈ before.map (·.key) := by simpa [Ne.symm at_next] using done
      rw [← rendered.node key done]
      simp [Stage.node?, Array.getElem?_setIfInBounds_ne at_next]
  case buffer =>
    intro key done
    by_cases at_next : next.key = key
    · subst at_next
      refine ⟨stage.outputs[next.key].lay _, ?_, Buffer.holds_lay _ _ fits⟩
      simp [Stage.output?, lt, lt_outputs]
    · have done : key ∈ before.map (·.key) := by simpa [Ne.symm at_next] using done
      simpa [Stage.output?, Array.getElem?_setIfInBounds_ne at_next] using
        rendered.buffer key done
  case untouched =>
    intro key not_done
    have at_next : next.key ≠ key := by
      rintro rfl
      simp at not_done
    have not_done : key ∉ before.map (·.key) := by
      intro done
      simp [done] at not_done
    simpa [Array.getElem?_setIfInBounds_ne at_next] using rendered.untouched key not_done

variable (block start)

/-- All steps of a plan, one after another. -/
theorem Rendered.run (once : plan.keys.Nodup)
    (earlier : ∀ before step after, plan.steps = before ++ step :: after →
      ∀ link ∈ step.inputs, link.source ∈ before.map (·.key))
    (sized : start.outputs.size = start.nodes.size) (fits : n ≤ maxBlockSize)
    (live : ∀ key ∈ plan.keys, (start.node? key).isSome) :
    ∃ stage, start.run block n plan = .ok stage ∧
      Rendered plan block n start plan.steps stage := by
  suffices general : ∀ after before stage, plan.steps = before ++ after →
      Rendered plan block n start before stage →
      ∃ last, after.foldlM (Stage.step block n) stage = .ok last ∧
        Rendered plan block n start plan.steps last from
    general plan.steps [] start rfl
      ⟨rfl, rfl, by simp, by simp, fun _ _ => ⟨rfl, rfl⟩⟩
  intro after
  induction after with
  | nil =>
    intro before stage split rendered
    refine ⟨stage, rfl, ?_⟩
    rwa [split, List.append_nil]
  | cons next rest ih =>
    intro before stage split rendered
    have planned : next.key ∈ plan.keys := by simp [Plan.keys, split]
    obtain ⟨stepped, step, so_far⟩ :=
      rendered.step once earlier sized fits split (live _ planned)
    obtain ⟨last, run, whole⟩ := ih (before ++ [next]) stepped (by simp [split]) so_far
    refine ⟨last, ?_, whole⟩
    rw [List.foldlM_cons, step]
    exact run

end Stage

namespace Graph

open Relation (ReflTransGen)

variable {τ : Type}

theorem WellFormed.lives_of_path {graph : Graph τ} (h : graph.WellFormed) {key : NodeKey}
    (path : ReflTransGen (Feeds graph.connections) key destination) :
    (graph.node? key).isSome := by
  rcases path.cases_head with rfl | ⟨_, ⟨_, made⟩, -⟩
  · obtain ⟨node, found, -⟩ := Option.map_eq_some_iff.mp ((h.destined destination).mpr rfl)
    simp [found]
  · obtain ⟨⟨node, found, -⟩, -⟩ := admits_iff.mp (h.admitted _ made)
    simp [found]

variable [TimeAxis τ]

/-- Each frame of a chunk is what the nodes make of each other's samples in that frame over the
kept connections, whatever the buffers held before. Its time is the time of the chunk and as many
frames. What does not lead to the destination stays. -/
theorem renderChunk_eq [Fourier] {graph : Graph τ} (reachable : graph.Reachable) {n : Nat}
    (fits : n ≤ maxBlockSize) (outputs : Array Buffer)
    (sized : outputs.size = graph.nodes.size) (sums : Sums) :
    let plan := graph.prepare.1
    let block : Block τ := ⟨graph.rate, graph.now⟩
    let value := plan.sampleAt block graph.node?
    let nodes := plan.nodesAt block graph.node?
    (∀ step ∈ plan.steps, ∀ i, ∃ node, nodes i step.key = some node ∧
      let time := graph.now + TimeAxis.ofFrames i.toUInt64 graph.rate
      let frame := node.frame graph.rate time (total (value i) step.audio)
        (total (value i) step.modulation)
      value i step.key = frame.1 ∧ nodes (i + 1) step.key = some frame.2) ∧
    ∃ after, ({ graph with outputs, sums } : Graph τ).renderChunk n =
        .ok ((List.range n).map fun i => value i destination, after) ∧
      (∀ key, after.node? key = nodes n key) ∧
      ∀ key, ¬ ReflTransGen (Feeds graph.connections) key destination →
        after.node? key = graph.node? key ∧ after.outputs[key]? = outputs[key]? := by
  intro plan block value nodes
  have wellFormed := reachable.wellFormed
  have orders : plan.Orders _ _ destination := wellFormed.orders
  have live (key : NodeKey) (planned : key ∈ plan.keys) : (graph.node? key).isSome :=
    wellFormed.lives_of_path ((orders.reached key).mp planned)
  constructor
  · intro step mem i
    have planned : step.key ∈ plan.keys := List.mem_map_of_mem mem
    obtain ⟨node, found⟩ := Option.isSome_iff_exists.mp (live _ planned)
    refine ⟨_, nodesAt_step orders.once orders.earlier mem found i,
      sampleAt_step orders.once orders.earlier mem found i,
      nodesAt_step orders.once orders.earlier mem found (i + 1)⟩
  · set start : Graph τ := { graph with outputs, sums } with start_def
    have same_plan : start.prepare.1 = plan := by
      simp only [plan, prepare, start_def]
      cases graph.plan <;> rfl
    obtain ⟨journal, prepared⟩ := start.prepare_snd
    obtain ⟨stage, run, rendered⟩ :=
      Stage.Rendered.run block ⟨graph.nodes, outputs, sums⟩ orders.once
        orders.earlier sized fits live
    have destined : destination ∈ plan.steps.map (·.key) :=
      List.mem_of_getLast? orders.last
    obtain ⟨buffer, has_output, holds⟩ := rendered.buffer destination destined
    have heard : stage.heard n = .ok ((List.range n).map fun i => value i destination) := by
      simp only [Stage.heard, has_output]
      exact holds.first fits
    rw [same_plan] at prepared
    have both : start.prepare = (plan, { start with journal, plan := some plan }) :=
      Prod.ext same_plan prepared
    have chunk : start.renderChunk n = .ok ((List.range n).map fun i => value i destination,
        { start with
          journal, plan := some plan, nodes := stage.nodes, outputs := stage.outputs,
          sums := stage.sums, clock := start.clock.advance n.toUInt64 }) := by
      simp only [renderChunk, both, Fault.bind_ok_iff]
      exact ⟨stage, run, _, heard, rfl⟩
    refine ⟨_, chunk, fun key => ?_, fun key apart => ?_⟩
    · by_cases planned : key ∈ plan.keys
      · exact rendered.node key planned
      · exact (congrArg Option.join (rendered.untouched key planned).1).trans
          (nodesAt_of_not_mem block graph.node? planned n).symm
    · have unplanned : key ∉ plan.keys := mt (orders.reached key).mp apart
      obtain ⟨same_node, same_output⟩ := rendered.untouched key unplanned
      exact ⟨congrArg Option.join same_node, same_output⟩

/-- A buffer in which nothing is silent. -/
def loud : Buffer :=
  ⟨List.replicate maxBlockSize 1.0, List.length_replicate⟩

/-- A generator sounds in the second frame and the third. It feeds the destination by itself and
through a gain. Back from the gain a cycle leads to the constant that drives the generator. Another
generator is not connected. -/
def whistle : Graph Float :=
  [.addGenerator ⟨0, ⟨#[1.0, -0.5, 0.25, 0.75]⟩⟩, .setValue 1 .frequency 0.5, .addConstant 0.5,
    .connect 2 1 (.knob .frequency), .addGain 0.5, .connect 1 3 .audio, .connect 3 0 .audio,
    .connect 1 0 .audio, .connect 3 2 (.knob .offset), .armStart 1 0.25, .armStop 1 0.75,
    .addGenerator ⟨0, ⟨#[1.0]⟩⟩, .armStart 4 0.0, .resume].foldl perform (atRate 4.0)

theorem renderChunk_eq_whistle : whistle.Reachable ∧ 4 ≤ maxBlockSize ∧
    (Array.replicate 5 loud).size = whistle.nodes.size ∧
    (Search.complete whistle.connections destination).cut = [⟨3, 2, .knob .offset⟩] ∧
    let value := whistle.prepare.1.sampleAt ⟨whistle.rate, whistle.now⟩ whistle.node?
    (List.range 4).map (value · 1) = [0.0, 1.0, -0.5, 0.0] ∧
    (List.range 4).map (value · 2) = [0.5, 0.5, 0.5, 0.5] ∧
    (List.range 4).map (value · 3) = [0.0, 0.5, -0.25, 0.0] ∧
    ∃ after, ({ whistle with
      outputs := Array.replicate 5 loud
      sums := ⟨loud, loud⟩ } : Graph Float).renderChunk 4 = .ok ([0.0, 1.5, -0.75, 0.0], after) ∧
        ((after.node? 1).bind Node.generator?).map (·.player.phase) = some 0.5 ∧
        after.node? 4 = whistle.node? 4 := by
  have reachable : whistle.Reachable := Reachable.run (.create _) _
  have sized : (Array.replicate 5 loud).size = whistle.nodes.size := by decide
  obtain ⟨after, rendered, nodes, apart⟩ :=
    (renderChunk_eq (n := 4) reachable (by decide) (Array.replicate 5 loud) sized ⟨loud, loud⟩).2
  have heard : (List.range 4).map (fun i => whistle.prepare.1.sampleAt
      ⟨whistle.rate, whistle.now⟩ whistle.node? i destination) = [0.0, 1.5, -0.75, 0.0] := by
    decide +kernel
  have unheard : ¬ ReflTransGen (Feeds whistle.connections) 4 destination := by
    intro path
    obtain ⟨_, ⟨_, made⟩, -⟩ := path.cases_head.resolve_left (by decide)
    have unconnected : ∀ c ∈ whistle.connections, c.source ≠ 4 := by decide
    exact unconnected _ made rfl
  rw [heard] at rendered
  refine ⟨reachable, by decide, sized, by decide, by decide +kernel, by decide +kernel,
    by decide +kernel, after, rendered, ?_, (apart 4 unheard).1⟩
  rw [nodes 1]
  decide +kernel

end Graph

end Patchbay
