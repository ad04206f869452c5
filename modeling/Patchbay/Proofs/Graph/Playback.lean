import Patchbay.Proofs.Graph.Division
import Patchbay.Proofs.Graph.Permanence
import Patchbay.Proofs.Number.Rounding
import Patchbay.Wave.Transform

/-!
# What a generator plays as time goes on

A generator is processed in the frames of the chunks that are rendered while its node is in the
plan. Chunks end, the clock stands still, wires come and go, and still its player moves only in the
frames inside of its window: what it gives there is what the player alone gives, fed with the
frequencies of these frames one after another.
-/
namespace Patchbay

/-- Read one sample at each of a list of frequencies. -/
def Player.feed (player : Player Float Float32) (rate : Float32) :
    List Float32 → List Float32 × Player Float Float32
  | [] => ([], player)
  | frequency :: rest =>
    let (sample, moved) := player.next frequency rate
    let (samples, last) := moved.feed rate rest
    (sample :: samples, last)

variable {τ : Type}

/-- A frame in which a generator is processed. -/
structure Instant (τ : Type) where
  time : τ
  /-- The frequency of the generator with its modulation. -/
  pitch : Float32
  sample : Float32
  before : Option (Player Float Float32)
  after : Option (Player Float Float32)

namespace Instant

/-- Inside of a window a player gives its next sample and moves on, outside of it there is zero and
the player stays. -/
structure Moves (window : τ → Bool) (rate : Float32) (player : Player Float Float32)
    (instant : Instant τ) (moved : Player Float Float32) : Prop where
  before : instant.before = some player
  after : instant.after = some moved
  inside : window instant.time = true → player.next instant.pitch rate = (instant.sample, moved)
  outside : window instant.time = false → instant.sample = 0.0 ∧ moved = player

/-- Instants in a row lead a player on. -/
inductive Passes (window : τ → Bool) (rate : Float32) :
    Player Float Float32 → List (Instant τ) → Player Float Float32 → Prop where
  | nil (player : Player Float Float32) : Passes window rate player [] player
  | cons {player moved last : Player Float Float32} {instant : Instant τ}
    {rest : List (Instant τ)} (first : instant.Moves window rate player moved)
    (later : Passes window rate moved rest last) : Passes window rate player (instant :: rest) last

variable {window : τ → Bool} {rate : Float32} {player middle last : Player Float Float32}
  {instants others : List (Instant τ)}

theorem Passes.append (first : Passes window rate player instants middle)
    (second : Passes window rate middle others last) :
    Passes window rate player (instants ++ others) last := by
  induction first with
  | nil => exact second
  | cons moves _ ih => exact .cons moves (ih second)

/-- Outside of the window nothing is played and nothing moves. -/
theorem Passes.outside (passes : Passes window rate player instants last) {instant : Instant τ}
    (mem : instant ∈ instants) (silent : window instant.time = false) :
    instant.sample = 0.0 ∧ instant.after = instant.before := by
  induction passes with
  | nil => cases mem
  | cons moves _ ih =>
    rcases List.mem_cons.mp mem with rfl | mem
    · obtain ⟨sample, rfl⟩ := moves.outside silent
      exact ⟨sample, moves.after.trans moves.before.symm⟩
    · exact ih mem

/-- The frames inside of the window are those of the player alone. -/
theorem Passes.inside (passes : Passes window rate player instants last) :
    let inside := instants.filter fun instant => window instant.time
    player.feed rate (inside.map (·.pitch)) = (inside.map (·.sample), last) := by
  induction passes with
  | nil => rfl
  | @cons _ _ _ instant _ moves _ ih =>
    cases sounds : window instant.time with
    | false =>
      obtain ⟨-, rfl⟩ := moves.outside sounds
      simpa only [List.filter_cons, sounds, Bool.false_eq_true, if_false] using ih
    | true =>
      simp only [List.filter_cons, sounds, if_true, List.map_cons, Player.feed,
        moves.inside sounds, ih]

end Instant

section Frames

variable [TimeAxis τ]

/-- Through the frames of a block a node stays as it is but for its phase. -/
theorem Node.resting_after (block : Block τ) (input modulation : Nat → Float32) (node : Node τ)
    (i : Nat) : (node.after block input modulation i).resting = node.resting := by
  induction i with
  | zero => rfl
  | succ i ih => exact (Node.resting_frame ..).trans ih

/-- As long as the frames can be counted, a running clock counts them. -/
theorem Clock.toNat_advance {clock : Clock} {n : Nat}
    (countable : clock.frames.toNat + (if clock.running then n else 0) < 2 ^ 64) :
    (clock.advance n.toUInt64).frames.toNat =
      clock.frames.toNat + if clock.running then n else 0 := by
  rw [Clock.advance]
  cases running : clock.running with
  | false => rfl
  | true =>
    simp only [running, if_true] at countable ⊢
    have small : n.toUInt64.toNat = n := Nat.mod_eq_of_lt (by omega)
    rw [UInt64.toNat_add, small]
    exact Nat.mod_eq_of_lt countable

namespace Graph

variable {graph after : Graph τ}

/-- A node at a frame of the next chunk. -/
def nodeAt (graph : Graph τ) (i : Nat) (key : NodeKey) : Option (Node τ) :=
  graph.prepare.1.nodesAt graph.block graph.node? i key

/-- A generator that is planned plays frame by frame, at a frequency that its knob is fed with. -/
theorem WellFormed.frame_generator (well : graph.WellFormed) {step : Step}
    (mem : step ∈ graph.prepare.1.steps) {g : Generator τ}
    (lives : graph.node? step.key = some (.generator g)) (i : Nat) :
    ∃ moved, graph.nodeAt i step.key = some (.generator moved) ∧
      (Node.generator moved).resting = (Node.generator g).resting ∧
      let frame := moved.frame graph.rate (graph.block.timeAt i)
        (total (graph.sampleAt i) step.modulation)
      graph.sampleAt i step.key = frame.1 ∧
        graph.nodeAt (i + 1) step.key = some (.generator frame.2) := by
  have sample : graph.prepare.1.sampleAt graph.block graph.node? i step.key = _ :=
    sampleAt_step well.orders.once well.orders.earlier mem lives i
  have goes_on (i : Nat) : graph.prepare.1.nodesAt graph.block graph.node? i step.key = _ :=
    nodesAt_step well.orders.once well.orders.earlier mem lives i
  have now := goes_on i
  have next := goes_on (i + 1)
  have same := Node.resting_after graph.block
    (fun i => total (graph.prepare.1.sampleAt graph.block graph.node? i) step.audio)
    (fun i => total (graph.prepare.1.sampleAt graph.block graph.node? i) step.modulation)
    (.generator g) i
  rw [Node.sampleAt] at sample
  rw [Node.after] at next
  generalize (Node.generator g).after graph.block _ _ i = moved at now next sample same
  cases moved with
  | generator moved =>
    rw [Node.frame_generator] at sample next
    exact ⟨moved, now, same, sample, next⟩
  | _ => cases same

/-! ### Instants of a chunk -/

/-- What the buffer of a node holds at a frame. -/
def outputAt (graph : Graph τ) (i : Nat) (key : NodeKey) : Float32 :=
  (graph.outputs[key]?.bind fun buffer => buffer.samples[i]?).getD 0.0

/-- The player of a generator at a frame of the next chunk. -/
def playerAt (graph : Graph τ) (i : Nat) (key : NodeKey) : Option (Player Float Float32) :=
  ((graph.nodeAt i key).bind Node.generator?).map (·.player)

theorem playerAt_of_generator {i : Nat} {key : NodeKey} {g : Generator τ}
    (here : graph.nodeAt i key = some (.generator g)) : graph.playerAt i key = some g.player := by
  rw [playerAt, here]
  rfl

/-- A generator with a step at a frame of the chunk that leads to another graph. The samples are
those that stand in the buffers then. -/
def instantAt (graph after : Graph τ) (g : Generator τ) (step : Step) (i : Nat) : Instant τ where
  time := graph.block.timeAt i
  pitch := g.frequency + total (after.outputAt i) step.modulation
  sample := after.outputAt i step.key
  before := graph.playerAt i step.key
  after := graph.playerAt (i + 1) step.key

/-- The instants of a generator in such a chunk. If it is not planned it has none. -/
def instants (graph after : Graph τ) (key : NodeKey) (n : Nat) : List (Instant τ) :=
  match graph.generator? key, graph.prepare.1.steps.find? (·.key == key) with
  | some g, some step => (List.range n).map (graph.instantAt after g step)
  | _, _ => []

theorem Chunked.outputAt {n i : Nat} (chunked : graph.Chunked n after) (lt : i < n)
    {key : NodeKey} (planned : key ∈ graph.prepare.1.keys) :
    after.outputAt i key = graph.sampleAt i key := by
  obtain ⟨buffer, found, holds⟩ := chunked.buffer key planned
  have here := congrArg (·[i]?) holds
  simp only [List.getElem?_take, if_pos lt, List.getElem?_map, List.getElem?_range lt,
    Option.map_some] at here
  rw [Graph.outputAt, found, Option.bind_some, here, Option.getD_some]

/-- What feeds the knob of a node stands in the buffers. -/
theorem Chunked.fed {n i : Nat} (chunked : graph.Chunked n after) (lt : i < n)
    (well : graph.WellFormed) {step : Step} (listed : step ∈ graph.prepare.1.steps) :
    total (after.outputAt i) step.modulation = total (graph.sampleAt i) step.modulation := by
  refine total_congr fun link mem => chunked.outputAt lt ?_
  obtain ⟨before, behind, split⟩ := List.append_of_mem listed
  have source := well.orders.earlier before step behind split link (List.mem_of_mem_filter mem)
  rw [Plan.keys, split, List.map_append]
  exact List.mem_append_left _ source

/-- In a frame the player of a generator that is planned moves inside of its window alone. -/
theorem WellFormed.moves_frame (well : graph.WellFormed) {n i : Nat}
    (chunked : graph.Chunked n after) (lt : i < n) {step : Step}
    (listed : step ∈ graph.prepare.1.steps) {g : Generator τ}
    (found : graph.node? step.key = some (.generator g)) {player : Player Float Float32}
    (here : graph.nodeAt i step.key = some (.generator { g with player })) :
    ∃ moved, graph.nodeAt (i + 1) step.key = some (.generator { g with player := moved }) ∧
      (graph.instantAt after g step i).Moves g.isSounding graph.rate player moved := by
  obtain ⟨_, same, -, sample, next⟩ := well.frame_generator listed found i
  cases Option.some.inj (here.symm.trans same)
  rw [← chunked.fed lt well listed] at sample next
  rw [← chunked.outputAt lt (List.mem_map.mpr ⟨step, listed, rfl⟩)] at sample
  have sounding : Generator.isSounding { g with player } = g.isSounding := rfl
  have before : graph.playerAt i step.key = some player := playerAt_of_generator here
  simp only [Generator.frame, sounding] at sample next
  cases sounds : g.isSounding (graph.block.timeAt i) with
  | true =>
    simp only [sounds, if_true] at sample next
    refine ⟨_, next, before, playerAt_of_generator next, fun _ => Prod.ext sample.symm rfl,
      fun silent => ?_⟩
    exact absurd (sounds.symm.trans silent) (by decide)
  | false =>
    simp only [sounds, Bool.false_eq_true, if_false] at sample next
    refine ⟨_, next, before, playerAt_of_generator next, fun inside => ?_, fun _ => ⟨sample, rfl⟩⟩
    exact absurd (sounds.symm.trans inside) (by decide)

/-- The instants of a chunk lead the player of a generator on, and nothing else of it changes. -/
theorem WellFormed.passes_chunk (well : graph.WellFormed) {n : Nat}
    (chunked : graph.Chunked n after) {key : NodeKey} {g : Generator τ}
    (found : graph.node? key = some (.generator g)) :
    ∃ moved, after.node? key = some (.generator { g with player := moved }) ∧
      Instant.Passes g.isSounding graph.rate g.player (graph.instants after key n) moved := by
  have generator : graph.generator? key = some g := by rw [generator?, found]; rfl
  cases planned : graph.prepare.1.steps.find? (·.key == key) with
  | none =>
    have absent : key ∉ graph.prepare.1.keys := by
      simpa [Plan.keys, List.find?_eq_none] using planned
    refine ⟨g.player, ?_, ?_⟩
    · rw [chunked.node, nodesAt_of_not_mem _ _ absent, found]
    · rw [instants, generator, planned]
      exact .nil _
  | some step =>
    have listed := List.mem_of_find?_eq_some planned
    obtain rfl : step.key = key := by simpa using List.find?_some planned
    -- the induction is on the frames of the chunk that have passed
    have passed (k : Nat) (le : k ≤ n) : ∃ moved,
        graph.nodeAt k step.key = some (.generator { g with player := moved }) ∧
          Instant.Passes g.isSounding graph.rate g.player
            ((List.range k).map (graph.instantAt after g step)) moved := by
      induction k with
      | zero => exact ⟨g.player, found, .nil _⟩
      | succ k ih =>
        obtain ⟨player, here, passes⟩ := ih (by omega)
        obtain ⟨moved, next, moves⟩ := well.moves_frame chunked le listed found here
        rw [List.range_succ, List.map_append]
        exact ⟨moved, next, passes.append (.cons moves (.nil _))⟩
    obtain ⟨moved, last, passes⟩ := passed n le_rfl
    refine ⟨moved, (chunked.node step.key).trans last, ?_⟩
    simpa only [instants, generator, planned] using passes

/-! ### Instants of a run -/

/-- The instants of a generator in chunks that are rendered one after another. -/
def instantsOf (graph : Graph τ) (key : NodeKey) : List Nat → List (Instant τ)
  | [] => []
  | n :: rest =>
    match graph.renderChunk n with
    | .ok (_, after) => graph.instants after key n ++ after.instantsOf key rest
    | .error _ => []

/-- The instants of a generator in an operation. While the clock is suspended there are none. -/
def instantsIn (graph : Graph τ) (key : NodeKey) : Operation τ → List (Instant τ)
  | .render n => if graph.clock.running then graph.instantsOf key (chunks n) else []
  | _ => []

/-- The instants of a generator while operations are done one after another. -/
def played [Fourier] (graph : Graph τ) (key : NodeKey) : List (Operation τ) → List (Instant τ)
  | [] => []
  | operation :: rest =>
    graph.instantsIn key operation ++ (graph.perform operation).played key rest

/-- The generator of a key has come to a player, at whatever frequency, or it is gone. -/
structure Comes (graph : Graph τ) (key : NodeKey) (g : Generator τ)
    (player : Player Float Float32) : Prop where
  issued : key < graph.nodes.size
  lives : ∀ node, graph.node? key = some node →
    ∃ frequency, node = .generator { g with frequency, player }

variable {key : NodeKey} {g : Generator τ} {player : Player Float Float32}

omit [TimeAxis τ] in
theorem Comes.of_node? (comes : graph.Comes key g player)
    (size : graph.nodes.size ≤ after.nodes.size) (same : after.node? key = graph.node? key) :
    after.Comes key g player :=
  ⟨comes.issued.trans_le size, fun node found => comes.lives node (same ▸ found)⟩

theorem Comes.chunk (comes : graph.Comes key g player) (well : graph.WellFormed) {n : Nat}
    (chunked : graph.Chunked n after) :
    ∃ moved, after.Comes key g moved ∧
      Instant.Passes g.isSounding graph.rate player (graph.instants after key n) moved := by
  have issued : key < after.nodes.size := comes.issued.trans_eq chunked.size.symm
  cases found : graph.node? key with
  | none =>
    have absent : key ∉ graph.prepare.1.keys := fun planned => by
      simpa [found] using well.planned_lives planned
    refine ⟨player, comes.of_node? chunked.size.ge ?_, ?_⟩
    · rw [chunked.node, nodesAt_of_not_mem _ _ absent]
    · rw [instants, generator?, found]
      exact .nil _
  | some node =>
    obtain ⟨frequency, rfl⟩ := comes.lives node found
    obtain ⟨moved, lives, passes⟩ := well.passes_chunk chunked found
    refine ⟨moved, ⟨issued, fun node here => ⟨frequency, ?_⟩⟩, passes⟩
    exact Option.some.inj (here.symm.trans lives)

theorem Comes.chunks (comes : graph.Comes key g player) (well : graph.WellFormed)
    {sizes : List Nat} (fits : ∀ n ∈ sizes, n ≤ maxBlockSize) {samples : List Float32}
    (rendered : graph.renderChunks sizes = .ok (samples, after)) :
    ∃ moved, after.Comes key g moved ∧
      Instant.Passes g.isSounding graph.rate player (graph.instantsOf key sizes) moved := by
  induction sizes generalizing graph player samples with
  | nil =>
    cases rendered
    exact ⟨player, comes, .nil _⟩
  | cons n rest ih =>
    obtain ⟨_, middle, _, chunk, others, -⟩ := renderChunks_cons.mp rendered
    obtain ⟨_, chunk', chunked⟩ := well.chunk (fits n List.mem_cons_self)
    cases chunk.symm.trans chunk'
    obtain ⟨moved, comes', passes⟩ := comes.chunk well chunked
    obtain ⟨last, comes'', passes'⟩ := ih comes' (well.renderChunk chunk)
      (fun m mem => fits m (List.mem_cons_of_mem _ mem)) others
    rw [(elapsed_renderChunk chunk).rate] at passes'
    refine ⟨last, comes'', ?_⟩
    rw [instantsOf, chunk]
    exact passes.append passes'

/-- Does an operation arm a generator? -/
def Operation.arms : Operation τ → NodeKey → Bool
  | .armStart key _, other => key == other
  | .armStop key _, other => key == other
  | _, _ => false

theorem instantsIn_of_not_renders {operation : Operation τ} (rests : operation.renders = false) :
    graph.instantsIn key operation = [] := by
  cases operation with
  | render => cases rests
  | _ => rfl

section Instants

variable [Fourier]

/-- Whatever is done but to arm a generator, its instants lead its player on. -/
theorem Comes.perform (comes : graph.Comes key g player) (well : graph.WellFormed)
    {operation : Operation τ} (unarmed : operation.arms key = false) :
    ∃ moved, (graph.perform operation).Comes key g moved ∧
      Instant.Passes g.isSounding graph.rate player (graph.instantsIn key operation) moved := by
  have size := (Succeeds.perform graph operation).size
  have issued := comes.issued.trans_le size
  rcases well.node?_perform comes.issued operation with ⟨rests, same⟩ | ⟨rfl, gone⟩ |
    ⟨knob, value, rfl, turned⟩ | ⟨time, rfl, -⟩ | ⟨time, rfl, -⟩ | ⟨frames, samples, rfl, rendered⟩
  · rw [instantsIn_of_not_renders rests]
    exact ⟨player, comes.of_node? size same, .nil _⟩
  · refine ⟨player, ⟨issued, fun node found => ?_⟩, .nil _⟩
    rw [gone] at found
    cases found
  · refine ⟨player, ⟨issued, fun node found => ?_⟩, .nil _⟩
    rw [turned] at found
    obtain ⟨node, lives, rfl⟩ := Option.map_eq_some_iff.mp found
    obtain ⟨frequency, rfl⟩ := comes.lives node lives
    -- at most the frequency of a generator is turned
    cases knob with
    | frequency => exact ⟨value, rfl⟩
    | gain | offset => exact ⟨frequency, rfl⟩
  · simp [Operation.arms] at unarmed
  · simp [Operation.arms] at unarmed
  · simp only [instantsIn]
    generalize graph.perform (.render frames) = after at rendered ⊢
    unfold render at rendered
    split at rendered
    · rename_i running
      rw [if_pos running]
      exact comes.chunks well (fun size => le_of_mem_chunks) rendered
    · rename_i suspended
      cases rendered
      rw [if_neg suspended]
      exact ⟨player, comes, .nil _⟩

/-- So they do in a run. -/
theorem Comes.run (comes : graph.Comes key g player) (well : graph.WellFormed)
    {operations : List (Operation τ)}
    (unarmed : ∀ operation ∈ operations, operation.arms key = false) :
    ∃ last, (operations.foldl Graph.perform graph).Comes key g last ∧
      Instant.Passes g.isSounding graph.rate player (graph.played key operations) last := by
  induction operations generalizing graph player with
  | nil => exact ⟨player, comes, .nil _⟩
  | cons operation rest ih =>
    obtain ⟨moved, comes', passes⟩ := comes.perform well (unarmed operation List.mem_cons_self)
    obtain ⟨last, comes'', passes'⟩ := ih comes' (well.perform operation)
      fun other mem => unarmed other (List.mem_cons_of_mem _ mem)
    rw [(graph.ages_perform operation).rate] at passes'
    exact ⟨last, comes'', passes.append passes'⟩

/-! ### Times of instants -/

/-- How many frames the clock counts in an operation. -/
def framesIn (graph : Graph τ) : Operation τ → Nat
  | .render n => if graph.clock.running then n else 0
  | _ => 0

/-- How many frames the clock counts while operations are done one after another. -/
def counted (graph : Graph τ) : List (Operation τ) → Nat
  | [] => 0
  | operation :: rest => graph.framesIn operation + (graph.perform operation).counted rest

end Instants

/-- An instant lies in a chunk that begins now or later. -/
def Precedes (graph : Graph τ) (instant : Instant τ) : Prop :=
  ∃ start ahead : UInt64, graph.clock.frames.toNat ≤ start.toNat ∧
    instant.time = TimeAxis.ofFrames start graph.rate + TimeAxis.ofFrames ahead graph.rate

theorem precedes_of_mem_instants {n : Nat} {instant : Instant τ}
    (mem : instant ∈ graph.instants after key n) : graph.Precedes instant := by
  unfold instants at mem
  split at mem
  · obtain ⟨i, -, rfl⟩ := List.mem_map.mp mem
    refine ⟨graph.clock.frames, i.toUInt64, Nat.le_refl _, ?_⟩
    rw [instantAt, Block.timeAt, block, now, Clock.now_eq]
    rfl
  · cases mem

theorem Precedes.mono {instant : Instant τ} (precedes : after.Precedes instant)
    (rate : after.rate = graph.rate)
    (frames : graph.clock.frames.toNat ≤ after.clock.frames.toNat) : graph.Precedes instant := by
  obtain ⟨start, ahead, le, time⟩ := precedes
  exact ⟨start, ahead, frames.trans le, rate ▸ time⟩

theorem precedes_of_mem_instantsOf (running : graph.clock.running = true) {sizes : List Nat}
    (countable : graph.clock.frames.toNat + sizes.sum < 2 ^ 64) {instant : Instant τ}
    (mem : instant ∈ graph.instantsOf key sizes) : graph.Precedes instant := by
  induction sizes generalizing graph with
  | nil => cases mem
  | cons n rest ih =>
    simp only [List.sum_cons] at countable
    unfold instantsOf at mem
    split at mem
    · rename_i middle chunk
      have elapsed := elapsed_renderChunk chunk
      have frames : middle.clock.frames.toNat = graph.clock.frames.toNat + n := by
        rw [elapsed.clock, Clock.toNat_advance (by rw [if_pos running]; omega), if_pos running]
      rcases List.mem_append.mp mem with here | later
      · exact precedes_of_mem_instants here
      · exact (ih (elapsed.running.trans running) (by omega) later).mono elapsed.rate (by omega)
    · cases mem

variable [Fourier]

/-- As long as the frames can be counted, the clock counts them. -/
theorem WellFormed.toNat_frames_perform (well : graph.WellFormed) {operation : Operation τ}
    (countable : graph.clock.frames.toNat + graph.framesIn operation < 2 ^ 64) :
    (graph.perform operation).clock.frames.toNat =
      graph.clock.frames.toNat + graph.framesIn operation := by
  cases operation with
  | render n =>
    obtain ⟨samples, after, rendered⟩ := well.exists_render n
    simp only [Graph.perform, rendered]
    rw [(elapsed_render rendered).clock]
    exact Clock.toNat_advance countable
  | disconnect | disconnectInlet | resume | suspend => rfl
  | _ => simp [Graph.perform, framesIn, addGenerator, addGain, addConstant, armStart, armStop]

theorem WellFormed.toNat_frames_run (well : graph.WellFormed) {operations : List (Operation τ)}
    (countable : graph.clock.frames.toNat + graph.counted operations < 2 ^ 64) :
    (operations.foldl Graph.perform graph).clock.frames.toNat =
      graph.clock.frames.toNat + graph.counted operations := by
  induction operations generalizing graph with
  | nil => rfl
  | cons operation rest ih =>
    rw [counted] at countable ⊢
    have first : graph.clock.frames.toNat + graph.framesIn operation < 2 ^ 64 := by omega
    have frames := well.toNat_frames_perform first
    have later := ih (well.perform operation) (by omega)
    rw [List.foldl_cons]
    omega

theorem WellFormed.frames_le_run (well : graph.WellFormed) {operations : List (Operation τ)}
    (countable : graph.clock.frames.toNat + graph.counted operations < 2 ^ 64) :
    graph.clock.frames.toNat ≤ (operations.foldl Graph.perform graph).clock.frames.toNat :=
  (Nat.le_add_right ..).trans_eq (well.toNat_frames_run countable).symm

theorem WellFormed.precedes_played (well : graph.WellFormed) {operations : List (Operation τ)}
    (countable : graph.clock.frames.toNat + graph.counted operations < 2 ^ 64)
    {instant : Instant τ} (mem : instant ∈ graph.played key operations) :
    graph.Precedes instant := by
  induction operations generalizing graph with
  | nil => cases mem
  | cons operation rest ih =>
    rw [counted] at countable
    have first : graph.clock.frames.toNat + graph.framesIn operation < 2 ^ 64 := by omega
    have frames := well.toNat_frames_perform first
    rcases List.mem_append.mp mem with here | later
    · cases operation with
      | render n =>
        simp only [instantsIn, framesIn] at here countable
        split at here
        · rename_i running
          rw [if_pos running] at countable
          exact precedes_of_mem_instantsOf running (by rw [sum_chunks]; omega) here
        · cases here
      | _ => cases here
    · exact (ih (well.perform operation) (by omega) later).mono
        (graph.ages_perform operation).rate (by omega)

theorem rate_run (graph : Graph τ) (operations : List (Operation τ)) :
    (operations.foldl Graph.perform graph).rate = graph.rate :=
  List.foldlRecOn (motive := fun (after : Graph τ) => after.rate = graph.rate) operations _ rfl
    fun after same operation _ => (after.ages_perform operation).rate.trans same

end Graph

end Frames

/-! ### Generators that have finished -/

/-- A stop that has come has come at all later times. -/
theorem Generator.hasFinished_mono {g : Generator Float} {time later : Float}
    (finished : g.hasFinished time = true) (le : time ≤ later)
    (above : Number.AtLeastZero time.toModel.unpack)
    (above' : Number.AtLeastZero later.toModel.unpack) : g.hasFinished later = true := by
  unfold hasFinished at finished ⊢
  split at finished
  · exact decide_eq_true (Number.le_trans_double (of_decide_eq_true finished) le above above')
  · cases finished

namespace Graph

/-- Whatever is done to a graph but to arm a generator, the generator gives zero in every frame
outside of its window, and its player stays. In the frames inside of its window it gives what the
player alone gives, fed with the frequencies of these frames one after another, and that leads the
player to where it is if the generator still lives. At a positive rate, and as long as the frames
can be counted, a generator that has finished stays so and gives nothing but zeros. -/
theorem player_moves_inside_window [Fourier] {graph : Graph Float} (reachable : graph.Reachable)
    {key : NodeKey} {g : Generator Float} (lives : graph.node? key = some (.generator g))
    (operations : List (Operation Float))
    (unarmed : ∀ operation ∈ operations, operation.arms key = false) :
    let last := operations.foldl perform graph
    let instants := graph.played key operations
    let inside := instants.filter fun instant => g.isSounding instant.time
    (∀ instant ∈ instants, g.isSounding instant.time = false →
      instant.sample = 0.0 ∧ instant.after = instant.before) ∧
    (∃ player,
      g.player.feed graph.rate (inside.map (·.pitch)) = (inside.map (·.sample), player) ∧
      ∀ node, last.node? key = some node →
        ∃ frequency, node = .generator { g with frequency, player }) ∧
    (0.0 < graph.rate → graph.clock.frames.toNat + graph.counted operations < 2 ^ 64 →
      g.hasFinished graph.now = true →
        g.hasFinished last.now = true ∧ ∀ instant ∈ instants, instant.sample = 0.0) := by
  intro last instants inside
  have well := reachable.wellFormed
  have comes : graph.Comes key g g.player :=
    ⟨lt_size_of_node? lives, fun node found =>
      ⟨g.frequency, Option.some.inj (found.symm.trans lives)⟩⟩
  obtain ⟨player, comes', passes⟩ := comes.run well unarmed
  refine ⟨fun instant => passes.outside, ⟨player, passes.inside, comes'.lives⟩,
    fun positive countable finished => ?_⟩
  rw [now, Clock.now_eq] at finished ⊢
  have stays {time : Float} (le : TimeAxis.ofFrames graph.clock.frames graph.rate ≤ time)
      (above : Number.AtLeastZero time.toModel.unpack) : g.hasFinished time = true :=
    Generator.hasFinished_mono finished le (Number.atLeastZero_ofFrames positive _) above
  refine ⟨?_, fun instant mem => ?_⟩
  · have rate : last.clock.rate = graph.rate := rate_run graph operations
    rw [rate]
    exact stays (Number.ofFrames_le positive (well.frames_le_run countable))
      (Number.atLeastZero_ofFrames positive _)
  · obtain ⟨start, ahead, le, time⟩ := well.precedes_played countable mem
    have above := Number.atLeastZero_ofFrames positive start
    have above' := Number.atLeastZero_ofFrames positive ahead
    refine (passes.outside mem (Generator.isSounding_of_hasFinished (time ▸ stays ?_ ?_))).1
    · exact Number.le_trans_double (Number.ofFrames_le positive le) (Number.le_add above above')
        above (above.add_double above')
    · exact above.add_double above'

/-- A running graph with a generator that sounds from the second frame to the fourth. -/
def pulse : Graph Float :=
  [.addGenerator ⟨0, ⟨#[1.0, -1.0]⟩⟩, .setValue 1 .frequency 1.0, .connect 1 0 .audio,
    .armStart 1 0.25, .armStop 1 1.0, .resume].foldl perform (atRate 4.0)

theorem player_moves_inside_window_pulse :
    let operations : List (Operation Float) := [.render 2, .suspend, .render 3, .resume,
      .disconnect 1, .render 1, .connect 1 0 .audio, .setValue 1 .frequency 2.0, .render 4]
    let instants := pulse.played 1 operations
    let last := operations.foldl perform pulse
    pulse.Reachable ∧ (∀ operation ∈ operations, operation.arms 1 = false) ∧
      ∃ g, pulse.node? 1 = some (.generator g) ∧
        instants.map (g.isSounding ·.time) = [false, true, true, false, false, false] ∧
        (∃ player, g.player.feed 4.0 [1.0, 2.0] = ([1.0, 0.0], player)) ∧
        (∀ instant ∈ instants, g.isSounding instant.time = false →
          instant.sample = 0.0 ∧ instant.after = instant.before) ∧
        ∃ g', last.node? 1 = some (.generator g') ∧ g'.hasFinished last.now = true ∧
          0.0 < last.rate ∧ last.clock.frames.toNat + last.counted [.render 5] < 2 ^ 64 ∧
          ∀ instant ∈ last.played 1 [.render 5], instant.sample = 0.0 := by
  intro operations instants last
  have reachable : pulse.Reachable := Reachable.run (.create _) _
  obtain ⟨g, lives, sounding, pitches, samples, finished⟩ : ∃ g,
      pulse.node? 1 = some (.generator g) ∧
      instants.map (g.isSounding ·.time) = [false, true, true, false, false, false] ∧
      (instants.filter (g.isSounding ·.time)).map (·.pitch) = [1.0, 2.0] ∧
      (instants.filter (g.isSounding ·.time)).map (·.sample) = [1.0, 0.0] ∧
      g.hasFinished last.now = true :=
    ⟨_, rfl, by decide +kernel, by decide +kernel, by decide +kernel, by decide +kernel⟩
  have unarmed : ∀ operation ∈ operations, operation.arms 1 = false := by decide
  obtain ⟨outside, ⟨player, fed, stays⟩, -⟩ :=
    player_moves_inside_window reachable lives operations unarmed
  rw [pitches, samples] at fed
  obtain ⟨node, found⟩ := Option.isSome_iff_exists.mp
    (show (last.node? 1).isSome = true by decide +kernel)
  obtain ⟨frequency, rfl⟩ := stays node found
  have positive : 0.0 < last.rate := by decide +kernel
  have countable : last.clock.frames.toNat + last.counted [.render 5] < 2 ^ 64 := by decide +kernel
  have same (time : Float) : Generator.hasFinished { g with frequency, player } time =
      g.hasFinished time := rfl
  have finished := (same last.now).trans finished
  have reachable' : last.Reachable := reachable.run operations
  have silent := (player_moves_inside_window reachable' found [.render 5] (by decide)).2.2
    positive countable finished
  exact ⟨reachable, unarmed, g, lives, sounding, ⟨player, fed⟩, outside, _, found, finished,
    positive, countable, silent.2⟩

end Graph

end Patchbay
