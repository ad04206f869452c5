import Patchbay.Proofs.Graph.Playback
import Patchbay.Wave.Transform

/-!
# Rendering comes to its end

Rendering takes the first frames of buffers, copies signals onto others and reads entries of tables.
It comes to its end just if each of these accesses is in range. They all are: a chunk is no longer
than a buffer, and what is looked for in a table is taken modulo its size.
-/
namespace Patchbay

/-- An access to memory while frames are rendered. -/
inductive Access where
  /-- The first frames of a buffer. -/
  | slice (frames size : Nat)
  /-- A signal that is copied onto another one. -/
  | copy (source target : Nat)
  /-- An entry of a table. -/
  | entry (index size : Nat)
  deriving Repr, DecidableEq

/-- Is an access in range? A signal fits only onto one of its own length. -/
def Access.Allowed : Access → Prop
  | slice frames size => frames ≤ size
  | copy source target => source = target
  | entry index size => index < size

section Completing

variable {α β σ : Type}

theorem Fault.not_completes {fault : Fault} :
    ¬ ∃ result, (.error fault : Except Fault α) = .ok result := by
  rintro ⟨result, done⟩
  cases done

/-- Two operations in a row come to their end just if the first one does, and the second one on what
the first one gave. -/
theorem Fault.bind_completes_iff {first : Except Fault α} {next : α → Except Fault β} {P Q : Prop}
    (first_iff : (∃ middle, first = .ok middle) ↔ P)
    (next_iff : ∀ middle, first = .ok middle → ((∃ result, next middle = .ok result) ↔ Q)) :
    (∃ result, first >>= next = .ok result) ↔ P ∧ Q := by
  simp only [bind_ok_iff, ← first_iff]
  constructor
  · rintro ⟨result, middle, done, rest⟩
    exact ⟨⟨middle, done⟩, (next_iff middle done).mp ⟨result, rest⟩⟩
  · rintro ⟨⟨middle, done⟩, later⟩
    obtain ⟨result, rest⟩ := (next_iff middle done).mpr later
    exact ⟨result, middle, done, rest⟩

/-- What comes to its end whatever was before adds nothing. -/
theorem Fault.bind_completes_iff_first {first : Except Fault α} {next : α → Except Fault β}
    {P : Prop} (first_iff : (∃ middle, first = .ok middle) ↔ P)
    (always : ∀ middle, ∃ result, next middle = .ok result) :
    (∃ result, first >>= next = .ok result) ↔ P :=
  (bind_completes_iff first_iff fun middle _ => iff_true_intro (always middle)).trans
    (iff_of_eq (and_true P))

/-- A fold comes to its end just if each of its steps does, where that hangs on no state. -/
theorem Fault.foldlM_completes_iff {step : σ → α → Except Fault σ} {fine : α → Prop}
    (each : ∀ state a, (∃ next, step state a = .ok next) ↔ fine a) (state : σ) (items : List α) :
    (∃ last, items.foldlM step state = .ok last) ↔ ∀ a ∈ items, fine a := by
  induction items generalizing state with
  | nil => exact iff_of_true ⟨state, rfl⟩ (List.forall_mem_nil _)
  | cons a rest ih =>
    rw [List.foldlM_cons, List.forall_mem_cons]
    exact bind_completes_iff (each state a) fun next _ => ih next

end Completing

/-! ### Tables -/

namespace Player

variable {φ α : Type} [PhaseAxis φ α]

/-- The entry of a table that a phase lies in, and the one after it. -/
def entries (size : Nat) (phase : φ) : Nat × Nat :=
  let index := PhaseAxis.wholePart (phase * PhaseAxis.ofNat size) % size
  (index, (index + 1) % size)

variable [Sample α]

/-- What a player reads for its next sample. -/
def accesses (player : Player φ α) : List Access :=
  if player.wave.isEmpty then []
  else
    let (index, after) := entries player.wave.size player.phase
    [.entry index player.wave.size, .entry after player.wave.size]

/-- A sample is made of these two entries and of nothing else in the table. -/
theorem read_eq_entries {table : Array α} (filled : table.size ≠ 0) (phase : φ) :
    ∃ here after, table[(entries table.size phase).1]? = some here ∧
      table[(entries table.size phase).2]? = some after ∧
      let position := phase * PhaseAxis.ofNat table.size
      read table phase =
        here + (after - here) * PhaseAxis.toSample (position - PhaseAxis.floor position) := by
  have index_lt : (entries table.size phase).1 < table.size :=
    Nat.mod_lt _ (Nat.pos_of_ne_zero filled)
  have after_lt : (entries table.size phase).2 < table.size :=
    Nat.mod_lt _ (Nat.pos_of_ne_zero filled)
  refine ⟨_, _, Array.getElem?_eq_getElem index_lt, Array.getElem?_eq_getElem after_lt, ?_⟩
  rw [read, dif_neg filled]
  rfl

/-- Read one sample as `next` does, with the two entries looked up in the table one by one. -/
def fetch? (player : Player φ α) (frequency rate : Float32) : Option (α × Player φ α) :=
  if player.wave.isEmpty then some (player.next frequency rate)
  else do
    let (index, after) := entries player.wave.size player.phase
    let here ← player.wave.table[index]?
    let there ← player.wave.table[after]?
    let position := player.phase * PhaseAxis.ofNat player.wave.size
    some (here + (there - here) * PhaseAxis.toSample (position - PhaseAxis.floor position),
      (player.next frequency rate).2)

/-- The look-ups succeed just if what is read is in the table. -/
theorem fetch?_completes_iff (player : Player φ α) (frequency rate : Float32) :
    (∃ result, player.fetch? frequency rate = some result) ↔
      ∀ access ∈ player.accesses, access.Allowed := by
  unfold fetch? accesses
  split
  · exact iff_of_true ⟨_, rfl⟩ (List.forall_mem_nil _)
  · rw [List.forall_mem_cons, List.forall_mem_singleton]
    simp only [Option.bind_eq_bind, Option.bind_eq_some_iff]
    constructor
    · rintro ⟨result, here, at_index, there, at_after, -⟩
      exact ⟨(Array.getElem?_eq_some_iff.mp at_index).1, (Array.getElem?_eq_some_iff.mp at_after).1⟩
    · rintro ⟨index_lt, after_lt⟩
      exact ⟨_, _, Array.getElem?_eq_getElem index_lt, _, Array.getElem?_eq_getElem after_lt, rfl⟩

/-- They always do, and they give what the player gives. -/
theorem fetch?_eq (player : Player φ α) (frequency rate : Float32) :
    player.fetch? frequency rate = some (player.next frequency rate) := by
  unfold fetch?
  split
  · rfl
  · rename_i filled
    have nonempty : player.wave.table.size ≠ 0 := by simpa [Wave.isEmpty] using filled
    obtain ⟨here, there, at_index, at_after, sample⟩ := read_eq_entries nonempty player.phase
    have given : (player.next frequency rate).1 = read player.wave.table player.phase := by
      rw [next, if_neg filled]
    simp only [Wave.size, at_index, at_after, Option.bind_eq_bind, Option.bind_some, ← sample]
    rw [← given]

end Player

section Frames

variable {τ : Type} [TimeAxis τ]

/-- What a generator reads for each modulation, from the frame with the given index on. -/
def Generator.accesses (block : Block τ) (generator : Generator τ) (index : Nat) :
    List Float32 → List Access
  | [] => []
  | modulation :: rest =>
    (if generator.isSounding (block.timeAt index) then generator.player.accesses else []) ++
      Generator.accesses block (generator.frame block.rate (block.timeAt index) modulation).2
        (index + 1) rest

namespace Generator

/-- Render one frame as `frame` does, with the entries of the table looked up. -/
def fetchFrame? (generator : Generator τ) (rate : Float32) (time : τ) (modulation : Float32) :
    Option (Float32 × Generator τ) :=
  if generator.isSounding time then
    (generator.player.fetch? (generator.frequency + modulation) rate).map fun (sample, player) =>
      (sample, { generator with player })
  else some (0.0, generator)

/-- Render a frame for each modulation as `run` does, with the entries of the table looked up. -/
def fetch? (block : Block τ) (generator : Generator τ) (index : Nat) :
    List Float32 → Option (List Float32 × Generator τ)
  | [] => some ([], generator)
  | modulation :: rest => do
    let (sample, moved) ← generator.fetchFrame? block.rate (block.timeAt index) modulation
    let (samples, last) ← fetch? block moved (index + 1) rest
    some (sample :: samples, last)

theorem fetchFrame?_eq (generator : Generator τ) (rate : Float32) (time : τ)
    (modulation : Float32) : generator.fetchFrame? rate time modulation =
      some (generator.frame rate time modulation) := by
  rw [fetchFrame?, frame, Player.fetch?_eq]
  split <;> rfl

theorem fetch?_eq (block : Block τ) (generator : Generator τ) (index : Nat)
    (modulations : List Float32) :
    generator.fetch? block index modulations = some (generator.run block index modulations) := by
  induction modulations generalizing generator index with
  | nil => rfl
  | cons modulation rest ih =>
    simp only [fetch?, fetchFrame?_eq, Option.bind_eq_bind, Option.bind_some, ih]
    rfl

/-- The look-ups of all frames succeed just if what is read is in the tables. -/
theorem fetch?_completes_iff {block : Block τ} {generator : Generator τ} {index : Nat}
    {modulations : List Float32} :
    (∃ result, generator.fetch? block index modulations = some result) ↔
      ∀ access ∈ generator.accesses block index modulations, access.Allowed := by
  induction modulations generalizing generator index with
  | nil => exact iff_of_true ⟨_, rfl⟩ (List.forall_mem_nil _)
  | cons modulation rest ih =>
    have first : (∃ result,
        generator.fetchFrame? block.rate (block.timeAt index) modulation = some result) ↔
          ∀ access ∈ if generator.isSounding (block.timeAt index) then generator.player.accesses
            else [], access.Allowed := by
      unfold fetchFrame?
      split
      · rw [← generator.player.fetch?_completes_iff (generator.frequency + modulation) block.rate]
        simp
      · exact iff_of_true ⟨_, rfl⟩ (List.forall_mem_nil _)
    rw [accesses, List.forall_mem_append, ← first, ← ih]
    simp only [fetch?, Option.bind_eq_bind, Option.bind_eq_some_iff]
    constructor
    · rintro ⟨_, frame, fetched, rest_frames, later, -⟩
      obtain rfl := Option.some.inj (fetched.symm.trans (fetchFrame?_eq ..))
      exact ⟨⟨_, fetched⟩, _, later⟩
    · rintro ⟨⟨frame, fetched⟩, rest_frames, later⟩
      obtain rfl := Option.some.inj (fetched.symm.trans (fetchFrame?_eq ..))
      exact ⟨_, _, fetched, _, later, rfl⟩

theorem allowed_accesses (block : Block τ) (generator : Generator τ) (index : Nat)
    (modulations : List Float32) :
    ∀ access ∈ generator.accesses block index modulations, access.Allowed :=
  fetch?_completes_iff.mp ⟨_, fetch?_eq block generator index modulations⟩

end Generator

/-! ### One node -/

namespace Node

variable {block : Block τ} {input modulation out : List Float32}

/-- What is accessed when a node is rendered. -/
def accesses (block : Block τ) (input modulation out : List Float32) : Node τ → List Access
  | generator g => g.accesses block 0 (modulation.take out.length)
  | destination => [.copy input.length out.length]
  | _ => []

/-- A node comes to its end just if its accesses are in range, which for a generator means that all
its look-ups succeed. -/
theorem process_completes_iff (node : Node τ) :
    (∃ result, node.process block input modulation out = .ok result) ↔
      ∀ access ∈ node.accesses block input modulation out, access.Allowed := by
  cases node with
  | generator g =>
    exact (iff_of_true ⟨_, rfl⟩ ⟨_, g.fetch?_eq block 0 _⟩).trans Generator.fetch?_completes_iff
  | gain | constant => exact iff_of_true ⟨_, rfl⟩ (List.forall_mem_nil _)
  | destination =>
    rw [process, accesses, List.forall_mem_singleton]
    split
    · exact iff_of_true ⟨_, rfl⟩ ‹_›
    · exact iff_of_false Fault.not_completes ‹_›

theorem allowed_accesses (node : Node τ) (same : input.length = out.length) :
    ∀ access ∈ node.accesses block input modulation out, access.Allowed := by
  cases node with
  | generator g => exact g.allowed_accesses block 0 _
  | gain | constant => exact List.forall_mem_nil _
  | destination => exact List.forall_mem_singleton.mpr same

end Node

/-! ### One step -/

namespace Buffer

variable {buffer : Buffer} {n : Nat}

/-- To take the first frames of a buffer. -/
def slice (buffer : Buffer) (n : Nat) : Access :=
  .slice n buffer.samples.length

theorem allowed_slice_iff : (buffer.slice n).Allowed ↔ n ≤ maxBlockSize := by
  rw [slice, Access.Allowed, buffer.length_samples]

theorem first_completes_iff :
    (∃ result, buffer.first n = .ok result) ↔ (buffer.slice n).Allowed := by
  rw [allowed_slice_iff, first]
  split
  · exact iff_of_true ⟨_, rfl⟩ ‹_›
  · exact iff_of_false Fault.not_completes ‹_›

theorem clear_completes_iff :
    (∃ result, buffer.clear n = .ok result) ↔ (buffer.slice n).Allowed := by
  rw [allowed_slice_iff, clear]
  split
  · exact iff_of_true ⟨_, rfl⟩ ‹_›
  · exact iff_of_false Fault.not_completes ‹_›

theorem eq_take {samples : List Float32} (taken : buffer.first n = .ok samples) :
    samples = buffer.samples.take n := by
  unfold first at taken
  split at taken
  · exact (Except.ok.inj taken).symm
  · cases taken

theorem length_take (fits : n ≤ maxBlockSize) : (buffer.samples.take n).length = n := by
  rw [List.length_take, buffer.length_samples, Nat.min_eq_left fits]

end Buffer

namespace Stage

variable {stage : Stage τ} {n : Nat} {block : Block τ}

/-- What is accessed when the signals of links are added up: both sums, and the buffer of each
source that lives. -/
def gathered (stage : Stage τ) (n : Nat) (links : List Link) : List Access :=
  [stage.sums.input.slice n, stage.sums.modulation.slice n] ++
    links.flatMap fun link => (stage.output? link.source).toList.map (·.slice n)

/-- What is accessed when the node of a step is rendered, if it lives. -/
def accessed (block : Block τ) (n : Nat) (stage : Stage τ) (step : Step) : List Access :=
  stage.gathered n step.inputs ++
    match stage.gather n step.inputs, stage.nodes[step.key]?.join, stage.outputs[step.key]? with
    | .ok sums, some node, some output =>
      [sums.input.slice n, sums.modulation.slice n, output.slice n] ++
        node.accesses block (sums.input.samples.take n) (sums.modulation.samples.take n)
          (output.samples.take n)
    | _, _, _ => []

/-- What is accessed when the signal of the destination goes out. -/
def sent (stage : Stage τ) (n : Nat) : List Access :=
  match stage.output? Graph.destination with
  | some output => [output.slice n, .copy (output.samples.take n).length n]
  | none => []

/-- What is accessed when the rest of a plan is rendered and heard. -/
def accesses (block : Block τ) (n : Nat) (stage : Stage τ) : List Step → List Access
  | [] => stage.sent n
  | step :: rest =>
    stage.accessed block n step ++
      match stage.step block n step with
      | .ok next => next.accesses block n rest
      | .error _ => []

omit [TimeAxis τ] in
theorem clear_completes_iff (sums : Sums) : (∃ cleared, sums.clear n = .ok cleared) ↔
    ∀ access ∈ [sums.input.slice n, sums.modulation.slice n], access.Allowed := by
  rw [List.forall_mem_cons, List.forall_mem_singleton]
  refine Fault.bind_completes_iff Buffer.clear_completes_iff fun input _ => ?_
  exact Fault.bind_completes_iff_first Buffer.clear_completes_iff fun modulation => ⟨_, rfl⟩

omit [TimeAxis τ] in
theorem gather_completes_iff (links : List Link) : (∃ sums, stage.gather n links = .ok sums) ↔
    ∀ access ∈ stage.gathered n links, access.Allowed := by
  rw [gathered, List.forall_mem_append, List.forall_mem_flatMap]
  refine Fault.bind_completes_iff (clear_completes_iff _) fun cleared _ => ?_
  refine Fault.foldlM_completes_iff (fun sums link => ?_) cleared links
  cases stage.output? link.source with
  | none => exact iff_of_true ⟨sums, rfl⟩ (List.forall_mem_nil _)
  | some buffer =>
    rw [Option.toList_some, List.map_singleton, List.forall_mem_singleton]
    exact Fault.bind_completes_iff_first Buffer.first_completes_iff fun signal => ⟨_, rfl⟩

theorem step_completes_iff (step : Step) : (∃ next, stage.step block n step = .ok next) ↔
    ∀ access ∈ stage.accessed block n step, access.Allowed := by
  rw [accessed, List.forall_mem_append]
  refine Fault.bind_completes_iff (gather_completes_iff _) fun sums gathered => ?_
  rw [gathered]
  cases stage.nodes[step.key]?.join with
  | none => exact iff_of_true ⟨_, rfl⟩ (List.forall_mem_nil _)
  | some node =>
    cases stage.outputs[step.key]? with
    | none => exact iff_of_true ⟨_, rfl⟩ (List.forall_mem_nil _)
    | some output =>
      rw [List.forall_mem_append, List.forall_mem_cons, List.forall_mem_cons,
        List.forall_mem_singleton, and_assoc, and_assoc]
      refine Fault.bind_completes_iff Buffer.first_completes_iff fun input input_eq => ?_
      refine Fault.bind_completes_iff Buffer.first_completes_iff fun modulation modulation_eq => ?_
      refine Fault.bind_completes_iff Buffer.first_completes_iff fun out out_eq => ?_
      rw [Buffer.eq_take input_eq, Buffer.eq_take modulation_eq, Buffer.eq_take out_eq]
      exact Fault.bind_completes_iff_first (node.process_completes_iff) fun result => ⟨_, rfl⟩

omit [TimeAxis τ] in
theorem heard_completes_iff : (∃ samples, stage.heard n = .ok samples) ↔
    ∀ access ∈ stage.sent n, access.Allowed := by
  rw [heard, sent]
  cases stage.output? Graph.destination with
  | none => exact iff_of_true ⟨_, rfl⟩ (List.forall_mem_nil _)
  | some output =>
    have same : (output.slice n).Allowed → (Access.copy (output.samples.take n).length n).Allowed :=
      fun fits => Buffer.length_take (Buffer.allowed_slice_iff.mp fits)
    simp only [List.forall_mem_cons]
    exact Buffer.first_completes_iff.trans
      ⟨fun fits => ⟨fits, same fits, List.forall_mem_nil _⟩, And.left⟩

/-- A plan is rendered and heard just if all accesses on the way are in range. -/
theorem run_completes_iff (steps : List Step) :
    (∃ samples,
      (steps.foldlM (Stage.step block n) stage >>= fun last => last.heard n) = .ok samples) ↔
      ∀ access ∈ stage.accesses block n steps, access.Allowed := by
  induction steps generalizing stage with
  | nil => exact heard_completes_iff
  | cons step rest ih =>
    rw [accesses, List.forall_mem_append, List.foldlM_cons, bind_assoc]
    refine Fault.bind_completes_iff (step_completes_iff step) fun next stepped => ?_
    rw [stepped]
    exact ih

omit [TimeAxis τ] in
theorem allowed_gathered (fits : n ≤ maxBlockSize) (links : List Link) :
    ∀ access ∈ stage.gathered n links, access.Allowed := by
  have slice (buffer : Buffer) : (buffer.slice n).Allowed := Buffer.allowed_slice_iff.mpr fits
  refine List.forall_mem_append.mpr ⟨by simp [slice], List.forall_mem_flatMap.mpr fun link _ => ?_⟩
  exact List.forall_mem_map.mpr fun buffer _ => slice buffer

theorem allowed_accessed (fits : n ≤ maxBlockSize) (step : Step) :
    ∀ access ∈ stage.accessed block n step, access.Allowed := by
  refine List.forall_mem_append.mpr ⟨allowed_gathered fits _, ?_⟩
  split
  · rename_i sums node output _ _ _
    have slice (buffer : Buffer) : (buffer.slice n).Allowed := Buffer.allowed_slice_iff.mpr fits
    refine List.forall_mem_append.mpr ⟨by simp [slice], node.allowed_accesses ?_⟩
    rw [Buffer.length_take fits, Buffer.length_take fits]
  · exact List.forall_mem_nil _

omit [TimeAxis τ] in
theorem allowed_sent (fits : n ≤ maxBlockSize) : ∀ access ∈ stage.sent n, access.Allowed := by
  unfold sent
  split
  · rename_i output _
    rw [List.forall_mem_cons, List.forall_mem_singleton]
    exact ⟨Buffer.allowed_slice_iff.mpr fits, Buffer.length_take fits⟩
  · exact List.forall_mem_nil _

theorem allowed_accesses (fits : n ≤ maxBlockSize) (steps : List Step) :
    ∀ access ∈ stage.accesses block n steps, access.Allowed := by
  induction steps generalizing stage with
  | nil => exact allowed_sent fits
  | cons step rest ih =>
    refine List.forall_mem_append.mpr ⟨allowed_accessed fits step, ?_⟩
    split
    · exact ih
    · exact List.forall_mem_nil _

end Stage

/-! ### All chunks -/

namespace Graph

variable {graph : Graph τ} {n : Nat}

/-- What is accessed when a chunk is rendered. -/
def chunkAccesses (graph : Graph τ) (n : Nat) : List Access :=
  Stage.accesses graph.block n ⟨graph.nodes, graph.outputs, graph.sums⟩ graph.prepare.1.steps

/-- What is accessed when chunks are rendered one after another. -/
def chunksAccesses (graph : Graph τ) : List Nat → List Access
  | [] => []
  | n :: rest =>
    graph.chunkAccesses n ++
      match graph.renderChunk n with
      | .ok (_, after) => after.chunksAccesses rest
      | .error _ => []

/-- What is accessed when frames are rendered. -/
def accesses (graph : Graph τ) (n : Nat) : List Access :=
  if graph.clock.running then graph.chunksAccesses (chunks n) else []

theorem renderChunk_completes_iff : (∃ result, graph.renderChunk n = .ok result) ↔
    ∀ access ∈ graph.chunkAccesses n, access.Allowed := by
  rw [chunkAccesses, ← Stage.run_completes_iff]
  obtain ⟨journal, prepared⟩ := graph.prepare_snd
  simp only [renderChunk, prepared, Fault.bind_ok_iff]
  constructor
  · rintro ⟨result, stage, run, samples, heard, -⟩
    exact ⟨samples, stage, run, heard⟩
  · rintro ⟨samples, stage, run, heard⟩
    exact ⟨_, stage, run, samples, heard, rfl⟩

theorem renderChunks_completes_iff (sizes : List Nat) :
    (∃ result, graph.renderChunks sizes = .ok result) ↔
      ∀ access ∈ graph.chunksAccesses sizes, access.Allowed := by
  induction sizes generalizing graph with
  | nil => exact iff_of_true ⟨_, rfl⟩ (List.forall_mem_nil _)
  | cons n rest ih =>
    rw [chunksAccesses, List.forall_mem_append]
    refine Fault.bind_completes_iff renderChunk_completes_iff fun ⟨samples, after⟩ rendered => ?_
    rw [rendered]
    exact Fault.bind_completes_iff_first ih fun result => ⟨_, rfl⟩

/-- Rendering comes to its end just if all accesses on the way are in range. -/
theorem render_completes_iff : (∃ result, graph.render n = .ok result) ↔
    ∀ access ∈ graph.accesses n, access.Allowed := by
  rw [render, accesses]
  split
  · exact renderChunks_completes_iff _
  · exact iff_of_true ⟨_, rfl⟩ (List.forall_mem_nil _)

theorem allowed_chunksAccesses {sizes : List Nat} (fits : ∀ n ∈ sizes, n ≤ maxBlockSize) :
    ∀ access ∈ graph.chunksAccesses sizes, access.Allowed := by
  induction sizes generalizing graph with
  | nil => exact List.forall_mem_nil _
  | cons n rest ih =>
    obtain ⟨fit, fits⟩ := List.forall_mem_cons.mp fits
    refine List.forall_mem_append.mpr ⟨Stage.allowed_accesses fit _, ?_⟩
    split
    · exact ih fits
    · exact List.forall_mem_nil _

theorem allowed_accesses (graph : Graph τ) (n : Nat) :
    ∀ access ∈ graph.accesses n, access.Allowed := by
  unfold accesses
  split
  · exact allowed_chunksAccesses fun size => le_of_mem_chunks
  · exact List.forall_mem_nil _

/-! ### What rendering writes -/

theorem length_renderChunk {samples : List Float32} {after : Graph τ}
    (rendered : graph.renderChunk n = .ok (samples, after)) : samples.length = n := by
  obtain ⟨journal, prepared⟩ := graph.prepare_snd
  simp only [renderChunk, prepared, Fault.bind_ok_iff] at rendered
  obtain ⟨stage, -, _, heard, same⟩ := rendered
  cases same
  unfold Stage.heard at heard
  split at heard
  · exact Buffer.length_first heard
  · cases heard
    exact List.length_replicate

theorem length_renderChunks {sizes : List Nat} {samples : List Float32} {after : Graph τ}
    (rendered : graph.renderChunks sizes = .ok (samples, after)) : samples.length = sizes.sum := by
  induction sizes generalizing graph samples with
  | nil =>
    cases rendered
    rfl
  | cons n rest ih =>
    obtain ⟨first, middle, more, chunk, others, rfl⟩ := renderChunks_cons.mp rendered
    rw [List.length_append, List.sum_cons, length_renderChunk chunk, ih others]

/-- Every frame that was asked for is written. -/
theorem length_render {samples : List Float32} {after : Graph τ}
    (rendered : graph.render n = .ok (samples, after)) : samples.length = n := by
  unfold render at rendered
  split at rendered
  · rw [length_renderChunks rendered, sum_chunks]
  · cases rendered
    exact List.length_replicate

theorem counted_append [Fourier] (graph : Graph τ) (operations more : List (Operation τ)) :
    graph.counted (operations ++ more) =
      graph.counted operations + (operations.foldl Graph.perform graph).counted more := by
  induction operations generalizing graph with
  | nil => simp [counted]
  | cons operation rest ih =>
    rw [List.cons_append, counted, counted, ih, List.foldl_cons, Nat.add_assoc]

/-- Whatever was done to a graph before, rendering comes to its end. All its accesses to buffers and
tables are in range, and all signals are copied onto signals of their length. It gives as many
samples as it was asked for, and the clock counts them if it runs. If it stands, they are zeros and
the graph stays as it is. -/
theorem render_completes [Fourier] (rate : Float32) (operations : List (Operation τ)) (n : Nat)
    (countable : (atRate rate : Graph τ).counted (operations ++ [.render n]) < 2 ^ 64) :
    let graph : Graph τ := operations.foldl perform (atRate rate)
    (∀ access ∈ graph.accesses n, access.Allowed) ∧
    ∃ samples after, graph.render n = .ok (samples, after) ∧ samples.length = n ∧
      after.clock.running = graph.clock.running ∧ after.rate = rate ∧
      after.clock.frames.toNat =
        graph.clock.frames.toNat + (if graph.clock.running then n else 0) ∧
      (graph.clock.running = false → samples = List.replicate n 0.0 ∧ after = graph) := by
  intro graph
  have within : (atRate rate : Graph τ).counted operations +
      (if graph.clock.running then n else 0) < 2 ^ 64 := by
    rwa [counted_append] at countable
  have allowed := graph.allowed_accesses n
  obtain ⟨⟨samples, after⟩, rendered⟩ := render_completes_iff.mpr allowed
  have clock := (elapsed_render rendered).clock
  refine ⟨allowed, samples, after, rendered, length_render rendered, ?_, ?_, ?_,
    fun suspended => ?_⟩
  · rw [clock, Clock.running_advance]
  · rw [Graph.rate, clock, Clock.rate_advance]
    exact rate_run _ operations
  · have well : (atRate rate : Graph τ).WellFormed := wellFormed_atRate rate
    have begun : (atRate rate : Graph τ).clock.frames.toNat = 0 := rfl
    have frames : graph.clock.frames.toNat = (atRate rate : Graph τ).clock.frames.toNat +
        (atRate rate : Graph τ).counted operations := well.toNat_frames_run (by omega)
    rw [clock]
    exact Clock.toNat_advance (by omega)
  · rw [render, if_neg (by simp [suspended])] at rendered
    cases rendered
    exact ⟨rfl, rfl⟩

/-- What leads to a running graph with a cycle and a node that was removed after it had sounded. -/
def toils : List (Operation Float) :=
  [.addGenerator ⟨0, ⟨#[1.0, 0.5, -1.0]⟩⟩, .setValue 1 .frequency (1.0 / 0.0), .connect 1 0 .audio,
    .addGain 0.5, .addGain 2.0, .connect 1 2 .audio, .connect 2 3 .audio,
    .connect 3 2 (.knob .gain), .connect 3 0 .audio, .armStart 1 (0.0 / 0.0), .armStop 1 (-1.0),
    .resume, .render 2, .remove 1]

theorem render_completes_toils :
    (atRate 3.0 : Graph Float).counted (toils ++ [.render 5000]) < 2 ^ 64 ∧
      ∃ samples after, (toils.foldl perform (atRate 3.0)).render 5000 = .ok (samples, after) ∧
        samples.length = 5000 ∧ after.clock.frames.toNat = 5002 := by
  have countable : (atRate 3.0 : Graph Float).counted (toils ++ [.render 5000]) < 2 ^ 64 := by
    decide +kernel
  have running : (toils.foldl perform (atRate 3.0)).clock.running = true := by decide +kernel
  have before : (toils.foldl perform (atRate 3.0)).clock.frames.toNat = 2 := by decide +kernel
  obtain ⟨-, samples, after, rendered, length, -, -, frames, -⟩ :=
    render_completes 3.0 toils 5000 countable
  rw [if_pos running, before] at frames
  exact ⟨countable, samples, after, rendered, length, frames⟩

end Graph

end Frames

end Patchbay
