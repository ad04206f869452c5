import Mathlib.Algebra.BigOperators.Group.List.Basic
import Mathlib.Algebra.GroupWithZero.Nat
import Patchbay.Graph.Lemmas
import Patchbay.Graph.Render

/-!
# What rendering leaves

To render lets time pass: the clock counts the frames, players move on, and buffers, the plan and
the journal are written anew. All else of a graph stays as it was.
-/
namespace Patchbay

variable {τ : Type}

/-! ### Nodes at rest -/

namespace Node

/-- A node with its player at the beginning of the wave: all of it that rendering leaves. -/
def resting : Node τ → Node τ :=
  mapGenerator fun generator => { generator with player := generator.player.rewind }

theorem resting_eq_gain_iff {node : Node τ} {factor : Float32} :
    node.resting = gain factor ↔ node = gain factor := by
  cases node <;> simp [resting, mapGenerator]

theorem resting_process [TimeAxis τ] {block : Block τ}
    {input modulation out samples : List Float32} {node after : Node τ}
    (h : node.process block input modulation out = .ok (after, samples)) :
    after.resting = node.resting := by
  cases node with
  | destination =>
    simp only [process] at h
    split at h
    · cases h
      rfl
    · cases h
  | generator g =>
    cases h
    simp only [resting, mapGenerator]
    exact congrArg generator (g.run_rewound block 0 (modulation.take out.length))
  | _ =>
    cases h
    rfl

theorem value?_resting (node : Node τ) (knob : Knob) :
    node.resting.value? knob = node.value? knob := by
  cases node <;> cases knob <;> rfl

/-- A node that rests like a generator is this generator at some phase. -/
theorem exists_of_resting_eq {node : Node τ} {g : Generator τ}
    (rests : node.resting = (generator g).resting) : ∃ moved, node = generator moved ∧
      { moved with player := moved.player.rewind } = { g with player := g.player.rewind } := by
  cases node with
  | generator moved => exact ⟨moved, rfl, generator.inj rests⟩
  | _ => cases rests

end Node

namespace Graph

/-! ### Chunks of a number of frames -/

theorem le_of_mem_chunks {n size : Nat} (mem : size ∈ chunks n) : size ≤ maxBlockSize := by
  unfold chunks at mem
  rcases List.mem_append.mp mem with full | last
  · exact Nat.le_of_eq (List.eq_of_mem_replicate full)
  · split at last
    · cases last
    · rw [List.mem_singleton.mp last]
      exact Nat.le_of_lt (Nat.mod_lt n (by decide))

@[simp] theorem sum_chunks (n : Nat) : (chunks n).sum = n := by
  have parts := Nat.div_add_mod' n maxBlockSize
  unfold chunks
  split
  · rename_i even
    simpa [even] using parts
  · simpa using parts

theorem sum_flatMap_chunks (lengths : List Nat) : (lengths.flatMap chunks).sum = lengths.sum := by
  induction lengths with
  | nil => rfl
  | cons n rest ih => simp [ih]

theorem pos_of_mem_chunks {n size : Nat} (mem : size ∈ chunks n) : 0 < size := by
  unfold chunks at mem
  rcases List.mem_append.mp mem with full | last
  · rw [List.eq_of_mem_replicate full]
    decide
  · split at last
    · cases last
    · rw [List.mem_singleton.mp last]
      omega

/-! ### Nodes and their phases -/

/-- Nodes stay but for the phases of generators. -/
def SameButPhases (before after : Graph τ) : Prop :=
  ∀ key, (after.node? key).map Node.resting = (before.node? key).map Node.resting

namespace SameButPhases

variable {graph middle after : Graph τ}

theorem refl (graph : Graph τ) : graph.SameButPhases graph :=
  fun _ => rfl

theorem trans (first : graph.SameButPhases middle) (second : middle.SameButPhases after) :
    graph.SameButPhases after :=
  fun key => (second key).trans (first key)

/-- What a node has at rest, it keeps. -/
theorem map_eq (same : graph.SameButPhases after) {α : Type} (view : Node τ → α)
    (rests : ∀ node, view node.resting = view node) (key : NodeKey) :
    (after.node? key).map view = (graph.node? key).map view := by
  have kept := congrArg (Option.map view) (same key)
  simpa only [Option.map_map, Function.comp_def, rests] using kept

theorem value? (same : graph.SameButPhases after) (key : NodeKey) (knob : Knob) :
    after.value? key knob = graph.value? key knob := by
  have kept := congrArg (Option.bind · (·.value? knob)) (same key)
  simpa only [Graph.value?, Option.bind_map, Function.comp_def, Node.value?_resting] using kept

/-- A generator is still the same but for its phase. -/
theorem generator (same : graph.SameButPhases after) {key : NodeKey} {g : Generator τ}
    (found : graph.node? key = some (.generator g)) :
    ∃ moved, after.node? key = some (.generator moved) ∧
      { moved with player := moved.player.rewind } = { g with player := g.player.rewind } := by
  have rests := same key
  rw [found, Option.map_some] at rests
  obtain ⟨node, lives, rests⟩ := Option.map_eq_some_iff.mp rests
  obtain ⟨moved, rfl, kept⟩ := Node.exists_of_resting_eq rests
  exact ⟨moved, lives, kept⟩

theorem gain (same : graph.SameButPhases after) {key : NodeKey} {factor : Float32}
    (found : graph.node? key = some (.gain factor)) : after.node? key = some (.gain factor) := by
  have rests := same key
  rw [found, Option.map_some] at rests
  obtain ⟨node, lives, rests⟩ := Option.map_eq_some_iff.mp rests
  rw [lives, Node.resting_eq_gain_iff.mp rests]

end SameButPhases

/-! ### Plans that are made -/

/-- A plan that is rendered by was kept, or made for the connections. -/
theorem prepare_fst (graph : Graph τ) : graph.plan = some graph.prepare.1 ∨
    graph.prepare.1 = Plan.ofConnections graph.connections destination := by
  simp only [prepare]
  split
  · rename_i plan kept
    exact .inl kept
  · exact .inr rfl

theorem prepare_snd (graph : Graph τ) : ∃ journal, graph.prepare.2 =
    { graph with journal := journal, plan := some graph.prepare.1 } := by
  simp only [prepare]
  split
  · rename_i plan kept
    exact ⟨graph.journal, by rw [← kept]⟩
  · simp only [logAll_eq]
    exact ⟨_, rfl⟩

/-! ### Steps of a plan -/

section Rendering

variable [TimeAxis τ] {block : Block τ} {n : Nat} {stage rendered : Stage τ}

theorem resting_step {step : Step} (h : stage.step block n step = .ok rendered) (key : NodeKey) :
    (rendered.nodes[key]?.join).map Node.resting = (stage.nodes[key]?.join).map Node.resting ∧
      rendered.nodes.size = stage.nodes.size ∧ rendered.outputs.size = stage.outputs.size := by
  unfold Stage.step at h
  rw [Fault.bind_ok_iff] at h
  obtain ⟨sums, -, h⟩ := h
  split at h
  · rename_i node output found _
    simp only [Fault.bind_ok_iff] at h
    obtain ⟨input, -, modulation, -, out, -, ⟨moved, samples⟩, processed, h⟩ := h
    cases h
    refine ⟨?_, by simp, by simp⟩
    by_cases here : step.key = key
    · subst here
      have lt : step.key < stage.nodes.size := by
        refine Nat.lt_of_not_le fun outside => ?_
        simp [Array.getElem?_eq_none outside] at found
      rw [found]
      simp [lt, Node.resting_process processed]
    · simp [Array.getElem?_setIfInBounds_ne here]
  · cases h
    exact ⟨rfl, rfl, rfl⟩

theorem resting_run {steps : List Step} (h : steps.foldlM (Stage.step block n) stage = .ok rendered)
    (key : NodeKey) :
    (rendered.nodes[key]?.join).map Node.resting = (stage.nodes[key]?.join).map Node.resting ∧
      rendered.nodes.size = stage.nodes.size ∧ rendered.outputs.size = stage.outputs.size := by
  induction steps generalizing stage with
  | nil =>
    cases h
    exact ⟨rfl, rfl, rfl⟩
  | cons step rest ih =>
    rw [List.foldlM_cons, Fault.bind_ok_iff] at h
    obtain ⟨middle, first, h⟩ := h
    obtain ⟨kinds, nodes, outputs⟩ := resting_step first key
    obtain ⟨kinds', nodes', outputs'⟩ := ih h
    exact ⟨kinds'.trans kinds, nodes'.trans nodes, outputs'.trans outputs⟩

end Rendering

/-! ### Frames that were rendered -/

/-- Frames were rendered. The clock counts them if it runs, and nothing else has changed but phases,
buffers, the plan and reports. -/
structure Elapsed (graph : Graph τ) (n : Nat) (after : Graph τ) : Prop where
  phases : graph.SameButPhases after
  size : after.nodes.size = graph.nodes.size
  buffers : after.outputs.size = graph.outputs.size
  connections : after.connections = graph.connections
  waves : after.waves = graph.waves
  clock : after.clock = graph.clock.advance n.toUInt64
  planned : ∀ plan, after.plan = some plan → graph.plan = some plan ∨
    plan = Plan.ofConnections graph.connections destination

namespace Elapsed

variable {graph middle after : Graph τ} {m n : Nat}

/-- No time goes by while the clock stands. -/
theorem of_suspended (suspended : ¬ graph.clock.running) (n : Nat) : graph.Elapsed n graph where
  phases := .refl graph
  size := rfl
  buffers := rfl
  connections := rfl
  waves := rfl
  clock := (if_neg suspended).symm
  planned := fun _ => .inl

theorem zero (graph : Graph τ) : graph.Elapsed 0 graph where
  phases := .refl graph
  size := rfl
  buffers := rfl
  connections := rfl
  waves := rfl
  clock := graph.clock.advance_zero.symm
  planned := fun _ => .inl

theorem trans (first : graph.Elapsed m middle) (second : middle.Elapsed n after) :
    graph.Elapsed (m + n) after where
  phases := first.phases.trans second.phases
  size := second.size.trans first.size
  buffers := second.buffers.trans first.buffers
  connections := second.connections.trans first.connections
  waves := second.waves.trans first.waves
  clock := by rw [second.clock, first.clock, Clock.advance_advance]
  planned := fun plan kept => (second.planned plan kept).elim (first.planned plan) fun made =>
    .inr (first.connections ▸ made)

theorem rate (elapsed : graph.Elapsed n after) : after.rate = graph.rate := by
  rw [Graph.rate, elapsed.clock, Clock.rate_advance, ← Graph.rate]

/-- A running clock runs on. -/
theorem running (elapsed : graph.Elapsed n after) :
    after.clock.running = graph.clock.running := by
  rw [elapsed.clock, Clock.running_advance]

end Elapsed

section Elapsing

variable [TimeAxis τ] {graph after : Graph τ}

/-- Chunks are rendered one after another if the first of them is, and then the others. -/
theorem renderChunks_cons {n : Nat} {rest : List Nat} {samples : List Float32} :
    graph.renderChunks (n :: rest) = .ok (samples, after) ↔ ∃ first middle more,
      graph.renderChunk n = .ok (first, middle) ∧ middle.renderChunks rest = .ok (more, after) ∧
        samples = first ++ more := by
  simp only [Graph.renderChunks, Fault.bind_ok_iff]
  constructor
  · rintro ⟨⟨first, middle⟩, chunk, ⟨more, last⟩, others, same⟩
    cases same
    exact ⟨first, middle, more, chunk, others, rfl⟩
  · rintro ⟨first, middle, more, chunk, others, rfl⟩
    exact ⟨_, chunk, _, others, rfl⟩

theorem elapsed_renderChunk {n : Nat} {samples : List Float32}
    (rendered : graph.renderChunk n = .ok (samples, after)) : graph.Elapsed n after := by
  have made := graph.prepare_fst
  obtain ⟨journal, prepared⟩ := graph.prepare_snd
  simp only [renderChunk, prepared, Fault.bind_ok_iff] at rendered
  obtain ⟨stage, run, _, -, rendered⟩ := rendered
  cases rendered
  have moved (key : NodeKey) := resting_run run key
  constructor
  case phases => exact fun key => (moved key).1
  case size => exact (moved destination).2.1
  case buffers => exact (moved destination).2.2
  case connections => rfl
  case waves => rfl
  case clock => rfl
  case planned =>
    intro plan kept
    rw [← Option.some.inj kept]
    exact made

theorem elapsed_renderChunks {sizes : List Nat} {samples : List Float32}
    (rendered : graph.renderChunks sizes = .ok (samples, after)) :
    graph.Elapsed sizes.sum after := by
  induction sizes generalizing graph samples with
  | nil =>
    cases rendered
    exact .zero _
  | cons n rest ih =>
    obtain ⟨first, middle, more, chunk, others, rfl⟩ := renderChunks_cons.mp rendered
    rw [List.sum_cons]
    exact (elapsed_renderChunk chunk).trans (ih others)

/-- To render frames lets their time go by. -/
theorem elapsed_render {n : Nat} {samples : List Float32}
    (rendered : graph.render n = .ok (samples, after)) : graph.Elapsed n after := by
  unfold render at rendered
  split at rendered
  · have elapsed := elapsed_renderChunks rendered
    rwa [sum_chunks] at elapsed
  · rename_i suspended
    cases rendered
    exact .of_suspended suspended _

end Elapsing

end Graph

end Patchbay
