import Patchbay.Proofs.Graph.Division
import Patchbay.Proofs.Number.Durations
import Patchbay.Proofs.Transport.Timekeeping

/-!
# Silence until the next project

A reset arms the stops of all generators at time zero. No frame comes before this time, so they are
silent from then on and their phases stand still. Nothing but a project arms a generator again.
-/
namespace Patchbay

variable {τ : Type} [TimeAxis τ]

/-- Once its stop has come, a generator is silent and stays as it is. -/
theorem Generator.frame_of_stopped {g : Generator τ} {stop time : τ} (stops : g.stops = some stop)
    (le : stop ≤ time) (rate modulation : Float32) : g.frame rate time modulation = (0.0, g) :=
  frame_of_not_within (fun within => within.2 stop stops le) rate modulation

/-- A frame of a node in a plan is a frame of the node, whatever feeds it. -/
theorem exists_frame {rate : Float32} {time : τ} {nodes : NodeKey → Option (Node τ)}
    {steps : List Step} {key : NodeKey} {result : Float32 × Node τ}
    (frame : frameOf rate time nodes steps key = some result) :
    ∃ node input modulation, nodes key = some node ∧
      node.frame rate time input modulation = result := by
  induction steps with
  | nil => cases frame
  | cons step earlier ih =>
    rw [frameOf] at frame
    split at frame
    · obtain ⟨node, found, same⟩ := Option.map_eq_some_iff.mp frame
      exact ⟨node, _, _, found, same⟩
    · exact ih frame

namespace Graph

/-- All generators were to stop at time zero, and no frame comes before it. -/
structure Quiet (graph : Graph τ) : Prop where
  well : graph.WellFormed
  stops : ∀ key g, graph.node? key = some (.generator g) → g.stops = some 0
  onward : ∀ start ahead : UInt64,
    (0 : τ) ≤ TimeAxis.ofFrames start graph.rate + TimeAxis.ofFrames ahead graph.rate

variable {graph after : Graph τ}

theorem Quiet.of_nodes (quiet : graph.Quiet) (well : after.WellFormed)
    (nodes : after.nodes = graph.nodes) (rate : after.rate = graph.rate) : after.Quiet where
  well := well
  stops := by
    intro key g found
    rw [node?, nodes] at found
    exact quiet.stops key g found
  onward := rate ▸ quiet.onward

/-- No generator sounds in any frame. -/
theorem Quiet.frame (quiet : graph.Quiet) {key : NodeKey} {g : Generator τ}
    (found : graph.node? key = some (.generator g)) (i : Nat) (modulation : Float32) :
    g.frame graph.rate (graph.block.timeAt i) modulation = (0.0, g) :=
  Generator.frame_of_stopped (quiet.stops key g found) (quiet.onward ..) ..

/-- A frame leaves all nodes as they are. -/
theorem Quiet.advance (quiet : graph.Quiet) (plan : Plan) (i : Nat) :
    plan.advance graph.node? graph.rate (graph.block.timeAt i) = graph.node? := by
  funext key
  rw [Plan.advance]
  cases frame : frameOf graph.rate (graph.block.timeAt i) graph.node? plan.steps.reverse key with
  | none => rfl
  | some result =>
    obtain ⟨node, input, modulation, found, rfl⟩ := exists_frame frame
    rw [found]
    cases node with
    | generator g => simp [Node.frame_generator, quiet.frame found]
    | _ => rfl

theorem Quiet.nodesAt (quiet : graph.Quiet) (plan : Plan) (i : Nat) :
    plan.nodesAt graph.block graph.node? i = graph.node? := by
  induction i with
  | zero => rfl
  | succ i ih =>
    funext key
    rw [Plan.nodesAt, ih]
    exact congrFun (quiet.advance plan i) key

/-- The signal of a generator is zero. -/
theorem Quiet.sampleAt (quiet : graph.Quiet) {key : NodeKey}
    (generator : graph.kind? key = some .generator) (i : Nat) : graph.sampleAt i key = 0.0 := by
  rw [Graph.sampleAt, Plan.sampleAt, quiet.nodesAt, Plan.sample]
  cases frame : frameOf graph.block.rate (graph.block.timeAt i) graph.node?
      graph.prepare.1.steps.reverse key with
  | none => rfl
  | some result =>
    obtain ⟨node, input, modulation, found, rfl⟩ := exists_frame frame
    rw [kind?, found] at generator
    cases node <;> cases generator
    rename_i g
    have silent : (g.frame graph.block.rate (graph.block.timeAt i) modulation).1 = 0.0 :=
      congrArg (·.1) (quiet.frame found i modulation)
    rw [Node.frame_generator]
    exact silent

/-- A chunk leaves all nodes and the wiring as they are, and every planned generator gives zeros. -/
theorem Quiet.chunk (quiet : graph.Quiet) {n : Nat} (fits : n ≤ maxBlockSize) :
    ∃ samples after, graph.renderChunk n = .ok (samples, after) ∧ after.Quiet ∧
      after.nodes = graph.nodes ∧ after.connections = graph.connections ∧
      ∀ key, graph.kind? key = some .generator → key ∈ graph.prepare.1.keys →
        after.given n key = .ok (List.replicate n 0.0) := by
  obtain ⟨after, rendered, chunked⟩ := quiet.well.chunk fits
  have elapsed := elapsed_renderChunk rendered
  have nodes : after.nodes = graph.nodes := by
    refine nodes_eq_of_node? chunked.size fun key => ?_
    rw [chunked.node, quiet.nodesAt]
  refine ⟨_, after, rendered, quiet.of_nodes (elapsed.wellFormed quiet.well) nodes elapsed.rate,
    nodes, elapsed.connections, fun key generator planned => ?_⟩
  have lives : after.contains key := by
    rw [contains, node?, nodes]
    exact quiet.well.planned_lives planned
  rw [chunked.given_eq fits lives planned]
  simp only [quiet.sampleAt generator, List.map_const', List.length_range]

/-- So do chunks in a row. -/
theorem Quiet.renderChunks (quiet : graph.Quiet) {sizes : List Nat}
    (fits : ∀ n ∈ sizes, n ≤ maxBlockSize) : ∃ samples after,
      graph.renderChunks sizes = .ok (samples, after) ∧ after.nodes = graph.nodes := by
  induction sizes generalizing graph with
  | nil => exact ⟨[], graph, rfl, rfl⟩
  | cons n rest ih =>
    obtain ⟨samples, middle, rendered, quiet', nodes, -, -⟩ :=
      quiet.chunk (fits n List.mem_cons_self)
    obtain ⟨more, after, others, nodes'⟩ :=
      ih quiet' fun m mem => fits m (List.mem_cons_of_mem _ mem)
    exact ⟨samples ++ more, after, renderChunks_cons.mpr ⟨_, _, _, rendered, others, rfl⟩,
      nodes'.trans nodes⟩

theorem Quiet.render (quiet : graph.Quiet) {n : Nat} {samples : List Float32}
    (rendered : graph.render n = .ok (samples, after)) : after.nodes = graph.nodes := by
  unfold Graph.render at rendered
  split at rendered
  · obtain ⟨samples', after', run, nodes⟩ := quiet.renderChunks fun _ => le_of_mem_chunks (n := n)
    rw [run] at rendered
    cases rendered
    exact nodes
  · cases rendered
    rfl

/-- In every chunk, planned generators give zeros. -/
theorem Quiet.signals (quiet : graph.Quiet) {sizes : List Nat}
    (fits : ∀ n ∈ sizes, n ≤ maxBlockSize) {keys : List NodeKey}
    (generators : ∀ key ∈ keys, graph.kind? key = some .generator ∧ key ∈ graph.prepare.1.keys) :
    graph.signals keys sizes =
      .ok (sizes.map fun n => keys.map fun _ => List.replicate n 0.0) := by
  induction sizes generalizing graph with
  | nil => rfl
  | cons n rest ih =>
    obtain ⟨samples, middle, rendered, quiet', nodes, connections, given⟩ :=
      quiet.chunk (fits n List.mem_cons_self)
    have same_plan : middle.prepare.1 = graph.prepare.1 := by
      rw [quiet'.well.prepare_fst, quiet.well.prepare_fst, connections]
    have chunk : keys.mapM (middle.given n) = .ok (keys.map fun _ => List.replicate n 0.0) :=
      Fault.mapM_eq_ok fun key mem => given key (generators key mem).1 (generators key mem).2
    have others := ih quiet' (fun m mem => fits m (List.mem_cons_of_mem _ mem)) fun key mem => by
      rw [kind?, node?, nodes, same_plan]
      exact generators key mem
    rw [Graph.signals, List.map_cons]
    exact Fault.bind_ok_iff.mpr ⟨_, rendered, Fault.bind_ok_iff.mpr ⟨_, chunk,
      Fault.bind_ok_iff.mpr ⟨_, others, rfl⟩⟩⟩

omit [TimeAxis τ] in
/-- To arm stops changes no more than nodes. -/
theorem foldl_armStop_eq (graph : Graph τ) (keys : List NodeKey) (time : τ) :
    ∃ nodes, keys.foldl (fun graph key => (graph.armStop key time).1) graph =
      { graph with nodes } ∧ nodes.size = graph.nodes.size := by
  induction keys generalizing graph with
  | nil => exact ⟨graph.nodes, rfl, rfl⟩
  | cons key rest ih =>
    obtain ⟨nodes, first, size⟩ : ∃ nodes, (graph.armStop key time).1 = { graph with nodes } ∧
        nodes.size = graph.nodes.size := by
      simp only [armStop, modifyGenerator]
      split
      · exact ⟨_, rfl, Array.size_setIfInBounds ..⟩
      · exact ⟨_, rfl, rfl⟩
    obtain ⟨nodes', others, size'⟩ := ih (graph.armStop key time).1
    refine ⟨nodes', ?_, ?_⟩
    · rw [List.foldl_cons, others, first]
    · rw [size', first, size]

end Graph

namespace Transport

variable {transport : Transport τ}

/-- What a reset changes: the place of the project, and some nodes. -/
theorem reset_eq (transport : Transport τ) :
    transport.reset = { transport with
      graph := { transport.graph with
        nodes := transport.reset.graph.nodes
        journal := transport.graph.journal.push (.transportReset transport.now) }
      location := transport.now } ∧
    transport.reset.graph.nodes.size = transport.graph.nodes.size := by
  obtain ⟨nodes, armed, size⟩ := transport.graph.foldl_armStop_eq transport.generators 0
  simp only [reset, foldl_halt, armed]
  exact ⟨rfl, size⟩

section Hushing

variable [Fourier]

omit [TimeAxis τ] in
/-- Every generator is counted. -/
theorem Sound.mem_generators (sound : transport.Sound) {key : NodeKey}
    (generator : transport.graph.kind? key = some .generator) : key ∈ transport.generators := by
  obtain ⟨name, id, ring, found, mem⟩ := sound.counted_of_generator generator
  exact Transport.mem_generators.mpr ⟨name, id, ring, found, mem⟩

theorem Sound.quiet_reset (sound : transport.Sound) (onward : ∀ start ahead : UInt64, (0 : τ) ≤
    TimeAxis.ofFrames start transport.graph.rate + TimeAxis.ofFrames ahead transport.graph.rate) :
    transport.reset.graph.Quiet where
  well := sound.reset.wellFormed
  stops := by
    intro key g found
    have generator : transport.graph.kind? key = some .generator := by
      rw [← (steady_reset transport).kinds key, Graph.kind?, found]
      rfl
    rw [(graph_reset transport).2.2, if_pos (sound.mem_generators generator)] at found
    obtain ⟨node, -, same⟩ := Option.map_eq_some_iff.mp found
    cases node <;> cases same
    rfl
  onward := by
    rw [(steady_reset transport).rate]
    exact onward

/-- In silence nothing but a project changes a node. -/
theorem Sound.nodes_perform (sound : transport.Sound) (quiet : transport.graph.Quiet)
    {operation : Operation τ} (no_project : projects [operation] = []) :
    (transport.perform operation).graph.nodes = transport.graph.nodes := by
  cases operation with
  | play =>
    show transport.play.graph.nodes = _
    unfold Transport.play
    split <;> rfl
  | pause =>
    show transport.pause.graph.nodes = _
    unfold Transport.pause
    split <;> rfl
  | reset =>
    refine Graph.nodes_eq_of_node? (reset_eq transport).2 fun key => ?_
    show transport.reset.graph.node? key = _
    rw [(graph_reset transport).2.2]
    split
    · cases found : transport.graph.node? key with
      | none => rfl
      | some node =>
        cases node with
        | generator g =>
          -- it was to stop at time zero anyway
          rw [Option.map_some, Node.mapGenerator, ← quiet.stops key g found]
        | _ => rfl
    · rfl
  | seek position => rfl
  | reconcile project => cases no_project
  | render frames =>
    obtain ⟨samples, graph, rendered, after⟩ := sound.perform_render frames
    rw [after]
    exact quiet.render rendered

theorem Sound.quiet_perform (sound : transport.Sound) (quiet : transport.graph.Quiet)
    {operation : Operation τ} (no_project : projects [operation] = []) :
    (transport.perform operation).graph.Quiet :=
  quiet.of_nodes (sound.perform operation).wellFormed (sound.nodes_perform quiet no_project)
    (sound.rate_perform operation)

/-- The silence lasts until the next project. -/
theorem Sound.quiet_foldl (sound : transport.Sound) (quiet : transport.graph.Quiet)
    {operations : List (Operation τ)} (no_project : projects operations = []) :
    (operations.foldl Transport.perform transport).graph.Quiet ∧
      (operations.foldl Transport.perform transport).graph.nodes = transport.graph.nodes := by
  induction operations generalizing transport with
  | nil => exact ⟨quiet, rfl⟩
  | cons operation rest ih =>
    have split : projects [operation] = [] ∧ projects rest = [] := by
      rw [← List.append_eq_nil_iff, projects, projects, ← List.filterMap_append]
      exact no_project
    obtain ⟨last, nodes⟩ := ih (sound.perform operation) (sound.quiet_perform quiet split.1) split.2
    exact ⟨last, nodes.trans (sound.nodes_perform quiet split.1)⟩

/-- After a reset, and as long as no project comes, no node changes: generators are silent in every
frame and their phases stand still, and all that they give while frames are rendered is zero. The
reset itself changes nothing but the stops of the generators that are counted, which are all that
live, and the place of the project. -/
theorem reset_silences (settings : Settings) (positive : 0.0 < settings.sampleRate)
    (operations : List (Operation Float)) :
    let before := after settings operations
    let start := before.reset
    (start = { before with
      graph := { before.graph with
        nodes := start.graph.nodes
        journal := before.graph.journal.push (.transportReset before.now) }
      location := before.now } ∧
      start.graph.nodes.size = before.graph.nodes.size ∧
      (∀ key, start.graph.node? key = if key ∈ before.generators then
          (before.graph.node? key).map
            (Node.mapGenerator fun generator => { generator with stops := some 0.0 })
        else before.graph.node? key) ∧
      ∀ key, before.graph.kind? key = some .generator → key ∈ before.generators) ∧
    ∀ later, projects later = [] →
      let last := later.foldl perform start
      last.graph.nodes = start.graph.nodes ∧
      (∀ key g, last.graph.node? key = some (.generator g) → ∀ i modulation,
        g.frame last.graph.rate (last.graph.block.timeAt i) modulation = (0.0, g)) ∧
      ∀ n keys, (∀ key ∈ keys, last.graph.kind? key = some .generator ∧
          key ∈ last.graph.prepare.1.keys) →
        last.graph.signals keys (Graph.chunks n) =
          .ok ((Graph.chunks n).map fun size => keys.map fun _ => List.replicate size 0.0) := by
  intro before start
  obtain ⟨sound, rate⟩ : before.Sound ∧ before.graph.rate = settings.sampleRate :=
    sound_after settings operations
  obtain ⟨same, size⟩ := reset_eq before
  refine ⟨⟨same, size, (graph_reset before).2.2, fun key => sound.mem_generators⟩,
    fun later no_project => ?_⟩
  have quiet := sound.quiet_reset (rate ▸ Number.zero_le_ofFrames_add positive)
  obtain ⟨last, nodes⟩ := sound.reset.quiet_foldl quiet no_project
  exact ⟨nodes, fun key g found => last.frame found, fun n keys =>
    last.signals fun _ => Graph.le_of_mem_chunks⟩

end Hushing

theorem reset_silences_demo :
    let operations : List (Operation Float) := [.reconcile Project.demo, .render 300]
    let later : List (Operation Float) := [.render 1000, .pause, .seek 0.25, .play]
    let start := (after {} operations).reset
    let last := later.foldl perform start
    0.0 < ({} : Settings).sampleRate ∧ projects later = [] ∧
      last.graph.nodes = start.graph.nodes ∧
      ∀ key g, last.graph.node? key = some (.generator g) → ∀ i modulation,
        g.frame last.graph.rate (last.graph.block.timeAt i) modulation = (0.0, g) :=
  have silent := (reset_silences {} (by decide) _).2 _ rfl
  ⟨by decide, rfl, silent.1, silent.2.1⟩

end Transport

end Patchbay
