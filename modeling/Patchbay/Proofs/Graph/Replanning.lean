import Patchbay.Proofs.Graph.Chunks
import Patchbay.Wave.Transform

/-!
# Plans made anew

A graph keeps its plan until its wiring changes. A graph that forgets it before every chunk makes
the same plan again. It reports this more often, and nothing else tells the two apart, whatever is
done to both of them.
-/
namespace Patchbay.Graph

variable {τ : Type}

/-- A graph that has forgotten its plan. -/
def unplanned (graph : Graph τ) : Graph τ :=
  { graph with plan := none }

section Rendering

variable [TimeAxis τ] [Fourier]

/-- Render chunks one after another, each by a plan of its own. -/
def renderChunksAnew (graph : Graph τ) : List Nat → Except Fault (List Float32 × Graph τ)
  | [] => .ok ([], graph)
  | n :: rest => do
    let (samples, graph) ← graph.unplanned.renderChunk n
    let (more, graph) ← renderChunksAnew graph rest
    .ok (samples ++ more, graph)

/-- Render a number of frames, each chunk by a plan of its own. -/
def renderAnew (graph : Graph τ) (n : Nat) : Except Fault (List Float32 × Graph τ) :=
  if graph.clock.running then graph.renderChunksAnew (chunks n)
  else .ok (List.replicate n 0.0, graph)

/-- The graph after an operation, where no chunk is rendered by an old plan. -/
def performAnew (graph : Graph τ) : Operation τ → Graph τ
  | .render frames =>
    match graph.renderAnew frames with
    | .ok (_, after) => after
    | .error _ => graph
  | operation => graph.perform operation

/-- What is heard while operations are done, where no chunk is rendered by an old plan. -/
def heardAnew (graph : Graph τ) : List (Operation τ) → List (Except Fault (List Float32))
  | [] => []
  | .render n :: rest =>
    (graph.renderAnew n).map (·.1) :: (graph.performAnew (.render n)).heardAnew rest
  | operation :: rest => (graph.performAnew operation).heardAnew rest

end Rendering

/-- Two well-formed graphs differ in nothing but their reports and whether they have a plan. -/
structure SameButPlan (a b : Graph τ) : Prop where
  rest : ∃ plan journal, b = { a with plan, journal }
  well : a.WellFormed
  well' : b.WellFormed

namespace SameButPlan

variable {a b : Graph τ}

theorem refl (well : a.WellFormed) : a.SameButPlan a :=
  ⟨⟨a.plan, a.journal, rfl⟩, well, well⟩

/-- To report something makes no other difference. -/
theorem log (well : a.WellFormed) (event : Event τ) : a.SameButPlan (a.log event) :=
  ⟨⟨_, _, rfl⟩, well, well.log event⟩

theorem clock (h : a.SameButPlan b) : b.clock = a.clock := by
  obtain ⟨_, _, rfl⟩ := h.rest
  rfl

/-- A plan can be forgotten. -/
theorem unplanned (h : a.SameButPlan b) : a.SameButPlan b.unplanned := by
  refine ⟨?_, h.well, h.well'.of_same (fun _ => rfl) rfl h.well'.buffered nofun⟩
  obtain ⟨plan, journal, rfl⟩ := h.rest
  exact ⟨none, journal, rfl⟩

/-- Both graphs render by the plan for their connections, which are the same. -/
theorem prepare_fst (h : a.SameButPlan b) : b.prepare.1 = a.prepare.1 := by
  rw [h.well'.prepare_fst, h.well.prepare_fst]
  obtain ⟨_, _, rfl⟩ := h.rest
  rfl

variable [TimeAxis τ]

theorem renderChunk (h : a.SameButPlan b) {n : Nat} (fits : n ≤ maxBlockSize) :
    ∃ samples after after', a.renderChunk n = .ok (samples, after) ∧
      b.renderChunk n = .ok (samples, after') ∧ after.SameButPlan after' := by
  obtain ⟨samples, after, rendered⟩ : ∃ samples after, a.renderChunk n = .ok (samples, after) :=
    (h.well.chunk fits).elim fun after chunked => ⟨_, after, chunked.1⟩
  obtain ⟨journal, prepared⟩ := a.prepare_snd
  obtain ⟨journal', prepared'⟩ := b.prepare_snd
  have plan := h.prepare_fst
  obtain ⟨_, _, same⟩ := h.rest
  have chunk := rendered
  simp only [Graph.renderChunk, prepared, Fault.bind_ok_iff] at chunk
  obtain ⟨stage, run, samples, is_heard, last⟩ := chunk
  cases last
  -- nodes, buffers and the clock set the same stage
  have rendered' : b.renderChunk n = .ok (samples, { b.prepare.2 with
      nodes := stage.nodes
      outputs := stage.outputs
      sums := stage.sums
      clock := b.clock.advance n.toUInt64 }) := by
    simp only [Graph.renderChunk, prepared', Fault.bind_ok_iff]
    refine ⟨stage, ?_, samples, is_heard, rfl⟩
    rw [plan, same]
    exact run
  refine ⟨samples, _, _, rendered, rendered', ?_, h.well.renderChunk rendered,
    h.well'.renderChunk rendered'⟩
  rw [prepared', plan, same]
  exact ⟨_, _, rfl⟩

/-- Chunks sound the same by plans of their own. -/
theorem renderChunks (h : a.SameButPlan b) {sizes : List Nat}
    (fits : ∀ n ∈ sizes, n ≤ maxBlockSize) :
    ∃ samples after after', a.renderChunks sizes = .ok (samples, after) ∧
      b.renderChunksAnew sizes = .ok (samples, after') ∧ after.SameButPlan after' := by
  induction sizes generalizing a b with
  | nil => exact ⟨[], a, b, rfl, rfl, h⟩
  | cons n rest ih =>
    obtain ⟨samples, middle, middle', chunk, chunk', h⟩ :=
      h.unplanned.renderChunk (fits n List.mem_cons_self)
    obtain ⟨more, after, after', others, others', h⟩ :=
      ih h fun m mem => fits m (List.mem_cons_of_mem _ mem)
    refine ⟨samples ++ more, after, after', ?_, ?_, h⟩
    · exact renderChunks_cons.mpr ⟨_, _, _, chunk, others, rfl⟩
    · exact Fault.bind_ok_iff.mpr ⟨_, chunk', Fault.bind_ok_iff.mpr ⟨_, others', rfl⟩⟩

theorem render (h : a.SameButPlan b) (n : Nat) :
    ∃ samples after after', a.render n = .ok (samples, after) ∧
      b.renderAnew n = .ok (samples, after') ∧ after.SameButPlan after' := by
  unfold Graph.render Graph.renderAnew
  rw [h.clock]
  split
  · exact h.renderChunks fun size => le_of_mem_chunks
  · exact ⟨_, a, b, rfl, rfl, h⟩

variable [Fourier]

/-- All operations but to render do not look at the plan. -/
theorem perform (h : a.SameButPlan b) {operation : Operation τ}
    (other : ∀ n, operation ≠ .render n) :
    (a.perform operation).SameButPlan (b.perform operation) := by
  refine ⟨?_, h.well.perform operation, h.well'.perform operation⟩
  obtain ⟨plan, journal, rfl⟩ := h.rest
  have admits : ({ a with plan, journal } : Graph τ).admits = a.admits := rfl
  have contains : ({ a with plan, journal } : Graph τ).contains = a.contains := rfl
  cases operation with
  | render n => exact absurd rfl (other n)
  | addGenerator | addGain | addConstant => exact ⟨_, _, rfl⟩
  | disconnect | disconnectInlet | resume | suspend | synthesize => exact ⟨_, _, rfl⟩
  | setValue =>
    simp only [Graph.perform, setValue, Graph.node?]
    split <;> exact ⟨_, _, rfl⟩
  | armStart | armStop =>
    simp only [Graph.perform, armStart, armStop, modifyGenerator, generator?, Graph.node?]
    split <;> exact ⟨_, _, rfl⟩
  | connect =>
    simp only [Graph.perform, connect, admits]
    split
    · split <;> exact ⟨_, _, rfl⟩
    · exact ⟨_, _, rfl⟩
  | remove =>
    simp only [Graph.perform, Graph.remove, contains]
    split <;> exact ⟨_, _, rfl⟩

theorem performAnew (h : a.SameButPlan b) (operation : Operation τ) :
    (a.perform operation).SameButPlan (b.performAnew operation) := by
  cases operation with
  | render n =>
    obtain ⟨samples, after, after', rendered, rendered', h⟩ := h.render n
    simp only [Graph.perform, Graph.performAnew, rendered, rendered']
    exact h
  | _ => exact h.perform (by simp)

/-- So they stay through every run. -/
theorem foldl (h : a.SameButPlan b) (operations : List (Operation τ)) :
    (operations.foldl Graph.perform a).SameButPlan (operations.foldl Graph.performAnew b) := by
  induction operations generalizing a b with
  | nil => exact h
  | cons operation rest ih => exact ih (h.performAnew operation)

/-- And all that is rendered through a run is the same. -/
theorem heardAnew (h : a.SameButPlan b) (operations : List (Operation τ)) :
    ∃ samples : List (List Float32), a.heard operations = samples.map .ok ∧
      b.heardAnew operations = samples.map .ok := by
  induction operations generalizing a b with
  | nil => exact ⟨[], rfl, rfl⟩
  | cons operation rest ih =>
    obtain ⟨samples, later, later'⟩ := ih (h.performAnew operation)
    cases operation with
    | render n =>
      obtain ⟨here, after, after', rendered, rendered', -⟩ := h.render n
      refine ⟨here :: samples, ?_, ?_⟩
      · rw [heard, rendered, later]
        rfl
      · rw [Graph.heardAnew, rendered', later']
        rfl
    | _ => exact ⟨samples, later, later'⟩

end SameButPlan

/-- Whatever was done to a graph, a plan that it keeps is the plan for its connections as they are.
A graph to which the same is done and that forgets its plan before every chunk differs in nothing
but its plan and its reports, and all that the two render is the same. -/
theorem plan_never_stale [TimeAxis τ] [Fourier] (rate : Float32)
    (operations : List (Operation τ)) :
    let graph := operations.foldl perform (atRate rate)
    (∀ plan, graph.plan = some plan → plan = Plan.ofConnections graph.connections destination) ∧
      (∃ plan journal, operations.foldl performAnew (atRate rate) =
        { graph with plan, journal }) ∧
      ∃ samples : List (List Float32), (atRate rate).heard operations = samples.map .ok ∧
        (atRate rate).heardAnew operations = samples.map .ok := by
  intro graph
  have start : (atRate rate : Graph τ).SameButPlan (atRate rate) := .refl (wellFormed_atRate rate)
  have last := start.foldl operations
  exact ⟨last.well.planned, last.rest, start.heardAnew operations⟩

-- a plan is kept through changes that leave the wiring, and lost with it
example : let graph : Graph Float := [.addConstant 1.0, .connect 1 0 .audio, .resume, .render 3,
      .setValue 1 .offset 0.5].foldl perform (atRate 4.0)
    graph.plan = some ⟨[⟨1, []⟩, ⟨0, [⟨1, .audio⟩]⟩]⟩ ∧
      (graph.perform (.remove 1)).plan = none := by
  decide +kernel

end Patchbay.Graph
