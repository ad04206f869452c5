import Patchbay.Proofs.Voice.Arming
import Patchbay.Proofs.Voice.Recall

/-!
# What a voice adds to a graph

The nodes of a voice are added one after another, each connected to what was there before. Where
buffers can be allocated, nothing in this can fail, and what comes of it is said in full: the nodes,
their connections, the keys that the ring counts and the waves that it keeps.
-/
namespace Patchbay

variable {τ : Type} [Fourier]

/-! ### Oscillators -/

/-- Where buffers can be allocated, a wave is made or was kept, and only a report shows. -/
theorem WaveMemo.wave_spec {memo : Option WaveMemo} {graph : Graph τ}
    (fits : binCount graph.rate ≤ Partials.maxBins) (kept : ∀ m ∈ memo, m.Made graph.rate)
    (partials : Partials) :
    ∃ made after, WaveMemo.wave memo graph partials = .ok (made, after) ∧
      made.Made graph.rate ∧ made.partials.StandsFor partials ∧ graph.Reported after ∧
      made.unnumbered = WaveMemo.asked memo graph.rate partials := by
  unfold WaveMemo.wave
  split
  · rename_i found filtered
    obtain ⟨mem, agrees⟩ := Option.filter_eq_some_iff.mp filtered
    simp only [Bool.and_eq_true] at agrees
    refine ⟨found, graph, rfl, kept found mem, .inr agrees.2, .refl graph, ?_⟩
    simp only [WaveMemo.asked, filtered]
  · rename_i filtered
    obtain ⟨real, real_placed⟩ := Partials.place_eq_ok fits Partials.empty
    obtain ⟨imag, imag_placed⟩ := Partials.place_eq_ok fits partials
    simp only [real_placed, imag_placed, bind, Except.bind]
    have same := graph.reported_logAll (imag.events graph.rate)
    obtain ⟨_, _, same⟩ := same
    refine ⟨_, _, rfl, ⟨?_, ?_⟩, .inl rfl, ?_, ?_⟩
    · rw [same]
      rfl
    · simp only [Partials.waveAt, real_placed, imag_placed, bind, Except.bind]
      rfl
    · rw [same]
      exact ⟨_, _, rfl⟩
    · simp only [WaveMemo.asked, filtered, Partials.waveAt, real_placed, imag_placed, bind,
        Except.bind]
      rw [same]
      rfl

theorem WaveMemo.wave_eq_error {graph : Graph τ} (large : Partials.maxBins < binCount graph.rate)
    (partials : Partials) :
    WaveMemo.wave none graph partials = .error (.bufferTooLarge (binCount graph.rate)) := by
  simp only [WaveMemo.wave, Option.filter_none, Partials.place_eq_error large, bind, Except.bind]

namespace Oscillator

/-- To spawn a generator adds one node, driven by the frequency control. -/
theorem spawn_spec (oscillator : Oscillator) {graph : Graph τ} (wellFormed : graph.WellFormed)
    (fits : binCount graph.rate ≤ Partials.maxBins)
    (kept : ∀ m ∈ oscillator.memo, m.Made graph.rate) {level : Float32}
    (control : graph.node? oscillator.control = some (.constant level)) (frequency : Float32) :
    ∃ made node after, oscillator.spawn graph frequency = .ok (graph.nodes.size,
        { oscillator with
          memo := some made
          nodes := oscillator.nodes ++ [graph.nodes.size]
          generators := oscillator.generators ++ [graph.nodes.size] }, after) ∧
      made.Made graph.rate ∧
      (Component.generator oscillator.partials frequency none none).Shown graph.rate node ∧
      graph.Grown after [node] [⟨oscillator.control, graph.nodes.size, .knob .frequency⟩] ∧
      made.unnumbered = WaveMemo.asked oscillator.memo graph.rate oscillator.partials ∧
      node.unnumbered = WaveMemo.cued (some made.unnumbered) frequency none none := by
  obtain ⟨made, reported, wave, is_made, stands, same, asked⟩ :=
    WaveMemo.wave_spec fits kept oscillator.partials
  have quiet := same.grown wellFormed
  have size : reported.nodes.size = graph.nodes.size := by simpa using quiet.size
  obtain ⟨generator, is_generator⟩ :
      ∃ g : Generator τ, g = { Generator.playing made.shared with frequency } := ⟨_, rfl⟩
  have turn : (Node.generator (Generator.playing made.shared : Generator τ)).setValue? .frequency
      frequency = some (.generator generator) := by rw [is_generator]; rfl
  have added := reported.grown_add quiet.wellFormed (.generator generator) (by simp [Node.kind])
  have control_lives := added.lives (quiet.lives control)
  have here : (reported.add (.generator generator)).2.node? graph.nodes.size =
      some (.generator generator) := by simp [Graph.node?_add, size]
  have new : (⟨oscillator.control, graph.nodes.size, .knob .frequency⟩ : Connection) ∉
      (reported.add (.generator generator)).2.connections := by
    rw [added.connections, List.append_nil]
    exact quiet.wellFormed.not_mem_of_size_le (.inr (Nat.le_of_eq size))
  have apart : oscillator.control ≠ graph.nodes.size :=
    Nat.ne_of_lt (Graph.lt_size_of_node? control)
  have connected := Graph.grown_connect _ added.wellFormed (.knob .frequency) control_lives rfl
    here rfl apart new
  have spawned : oscillator.spawn graph frequency = .ok (reported.nodes.size,
      { oscillator with
        memo := some made
        nodes := oscillator.nodes ++ [reported.nodes.size]
        generators := oscillator.generators ++ [reported.nodes.size] },
      ((((reported.add (.generator (Generator.playing made.shared))).2.setValue
        reported.nodes.size .frequency frequency).1).connect oscillator.control
          reported.nodes.size (.knob .frequency)).1) := by
    simp only [Oscillator.spawn, Oscillator.wave, wave, bind, Except.bind]
    rfl
  rw [reported.setValue_add turn, size] at spawned
  refine ⟨made, .generator generator, _, spawned, is_made, ?_,
    (quiet.trans added).trans connected, asked, by rw [is_generator]; rfl⟩
  refine ⟨generator, rfl, ⟨made.partials, _, stands, is_made.2, ?_⟩, ?_⟩
  · rw [is_generator]
    rfl
  · rw [is_generator]
    exact ⟨rfl, rfl, rfl⟩

/-- A voice of an oscillator is one generator that goes to the output stage. -/
theorem build_spec (oscillator : Oscillator) {graph : Graph τ} (wellFormed : graph.WellFormed)
    (fits : binCount graph.rate ≤ Partials.maxBins)
    (kept : ∀ m ∈ oscillator.memo, m.Made graph.rate) {level factor : Float32}
    (control : graph.node? oscillator.control = some (.constant level))
    (output : graph.node? oscillator.output = some (.gain factor)) (frequency : Float32) :
    ∃ made node after, oscillator.build graph frequency = .ok (
        ⟨graph.nodes.size, [graph.nodes.size]⟩,
        { oscillator with
          memo := some made
          nodes := oscillator.nodes ++ [graph.nodes.size]
          generators := oscillator.generators ++ [graph.nodes.size] }, after) ∧
      made.Made graph.rate ∧
      (Component.generator oscillator.partials frequency none none).Shown graph.rate node ∧
      graph.Grown after [node] [⟨oscillator.control, graph.nodes.size, .knob .frequency⟩,
        ⟨graph.nodes.size, oscillator.output, .audio⟩] ∧
      made.unnumbered = WaveMemo.asked oscillator.memo graph.rate oscillator.partials ∧
      node.unnumbered = WaveMemo.cued (some made.unnumbered) frequency none none := by
  obtain ⟨made, node, spawned, spawn, is_made, shown, grown, exact_wave⟩ :=
    oscillator.spawn_spec wellFormed fits kept control frequency
  obtain ⟨generator, is_generator, -⟩ := id shown
  have carrier : spawned.node? graph.nodes.size = some (.generator generator) := by
    have new := grown.node?_new 0
    simpa [is_generator] using new
  have apart : graph.nodes.size ≠ oscillator.output :=
    (Nat.ne_of_lt (Graph.lt_size_of_node? output)).symm
  have new : (⟨graph.nodes.size, oscillator.output, .audio⟩ : Connection) ∉ spawned.connections := by
    rw [grown.connections, List.mem_append, not_or]
    exact ⟨wellFormed.not_mem_of_size_le (.inl (Nat.le_refl _)), by simp⟩
  have connected := Graph.grown_connect _ grown.wellFormed .audio carrier rfl
    (grown.lives output) rfl apart new
  refine ⟨made, node, _, ?_, is_made, shown, grown.trans connected, exact_wave⟩
  simp only [Oscillator.build, spawn, bind, Except.bind]

end Oscillator

namespace RingOscillator

namespace Cascade

/-- A cascade to which a stage can be added: the chain ends at the latest node. -/
structure Ready (cascade : Cascade τ) : Prop where
  wellFormed : cascade.graph.WellFormed
  fits : binCount cascade.graph.rate ≤ Partials.maxBins
  kept : ∀ memo, cascade.ring.Keeps memo → memo.Made cascade.graph.rate
  control : ∃ level, cascade.graph.node? cascade.ring.oscillator.control = some (.constant level)
  chained : ∃ node, cascade.graph.node? cascade.chain = some node ∧ node.hasOutput
  latest : cascade.graph.nodes.size = cascade.chain + 1

/-- A branch adds its weight, its modulator and its stage. -/
theorem Ready.add {cascade : Cascade τ} (ready : cascade.Ready) (frequency : Float32)
    (branch : Branch) :
    ∃ (next : Cascade τ) (nodes : List (Node τ)),
      Cascade.add frequency cascade branch = .ok next ∧ next.Ready ∧
      List.Forall₂ (Component.Shown cascade.graph.rate)
        [.gain branch.weight, .generator branch.signal frequency none none, .gain 1.0] nodes ∧
      cascade.graph.Grown next.graph nodes
        (stageWires cascade.ring.oscillator.control cascade.chain 1) ∧
      next.chain = cascade.chain + 3 ∧
      next.generators = cascade.generators ++ [cascade.chain + 2] ∧
      next.ring.bare = cascade.ring.bare ∧
      next.ring.oscillator.nodes = cascade.ring.oscillator.nodes ++ stageNodes cascade.chain 1 ∧
      next.ring.oscillator.generators =
        cascade.ring.oscillator.generators ++ stageGenerators cascade.chain 1 ∧
      nodes.map Node.unnumbered =
        branchScore cascade.ring.memos cascade.graph.rate frequency none none branch ∧
      next.ring.oscillator.memo = cascade.ring.oscillator.memo ∧
      ∃ made, next.ring.memos = cascade.ring.memos.set branch.index (some made) ∧
        made.unnumbered = WaveMemo.asked cascade.ring.memos[branch.index]?.join
          cascade.graph.rate branch.signal := by
  obtain ⟨ring, graph, generators, chain⟩ := cascade
  obtain ⟨wellFormed, fits, kept, ⟨level, control⟩, ⟨chain_node, chained, has_output⟩, latest⟩ := ready
  dsimp only at *
  -- the weight
  have weighed := graph.grown_add wellFormed (.gain branch.weight) (by simp [Node.kind])
  have weight : (graph.add (.gain branch.weight)).2.node? (chain + 1) =
      some (.gain branch.weight) := by
    simp [Graph.node?_add, latest]
  have weighed_size : (graph.add (.gain branch.weight)).2.nodes.size = chain + 2 := by
    simp [latest]
  -- the modulator
  have memo_kept (memo : WaveMemo) (mem : memo ∈ ring.memos[branch.index]?.join) :
      memo.Made (graph.add (.gain branch.weight)).2.rate := by
    rw [weighed.rate]
    exact kept memo (.inr (List.mem_of_getElem? (Option.join_eq_some_iff.mp mem)))
  have control_lives := weighed.lives control
  obtain ⟨made, node, modulated, build, is_made, shown, grown, asked, cued⟩ :=
    (Oscillator.mk branch.signal (chain + 1) ring.oscillator.control false
      ring.memos[branch.index]?.join [] []).build_spec weighed.wellFormed
      (weighed.rate ▸ fits) memo_kept control_lives weight frequency
  dsimp only at build grown shown asked cued
  rw [weighed.rate] at is_made shown asked
  rw [weighed_size] at build grown
  have whole := weighed.trans grown
  have modulated_size : modulated.nodes.size = chain + 3 := by
    simp [grown.size, weighed_size]
  -- the stage
  obtain ⟨staged, stage⟩ := whole.wellFormed.grown_stage (grown.lives weight) rfl
    (whole.lives chained) has_output modulated_size
  have all := (weighed.trans grown).trans staged
  refine ⟨⟨{ ring with
      oscillator := (ring.oscillator.absorb {
        Oscillator.around branch.signal (chain + 1) ring.oscillator.control with
        memo := some made
        nodes := [chain + 2]
        generators := [chain + 2] }).track (chain + 3)
      memos := ring.memos.set branch.index (some made) }, _, generators ++ [chain + 2], chain + 3⟩,
    [.gain branch.weight, node, .gain 1.0], ?_, ?_, ?_, all, rfl, rfl, rfl, ?_, rfl, ?_, rfl,
    made, rfl, asked⟩
  · simp only [Cascade.add, Oscillator.around, Graph.addGain, Graph.add_fst, latest, build, bind,
      Except.bind, modulated_size]
    rfl
  · constructor
    case wellFormed => exact all.wellFormed
    case fits => exact all.rate ▸ fits
    case kept =>
      intro memo keeps
      rw [all.rate]
      rcases keeps with mem | mem
      · exact kept memo (.inl mem)
      · rcases List.mem_or_eq_of_mem_set mem with mem | same
        · exact kept memo (.inr mem)
        · exact Option.some.inj same ▸ is_made
    case control => exact ⟨level, all.lives control⟩
    case chained => exact ⟨_, stage, rfl⟩
    case latest =>
      rw [all.size, latest]
      rfl
  · exact .cons rfl (.cons shown (.cons rfl .nil))
  · simp [Oscillator.absorb, Oscillator.track, Oscillator.around, stageNodes]
  · simp only [List.map_cons, List.map_nil, cued, asked]
    rfl

/-- The branches add their stages one after another. -/
theorem Ready.addAll {cascade : Cascade τ} (ready : cascade.Ready) (frequency : Float32)
    (branches : List Branch) (once : (branches.map (·.index)).Nodup) :
    ∃ (last : Cascade τ) (nodes : List (Node τ)),
      branches.foldlM (Cascade.add frequency) cascade = .ok last ∧ last.Ready ∧
      List.Forall₂ (Component.Shown cascade.graph.rate)
        (branches.flatMap fun branch =>
          [.gain branch.weight, .generator branch.signal frequency none none, .gain 1.0]) nodes ∧
      cascade.graph.Grown last.graph nodes
        (stageWires cascade.ring.oscillator.control cascade.chain branches.length) ∧
      last.chain = cascade.chain + 3 * branches.length ∧
      last.generators = cascade.generators ++ stageGenerators cascade.chain branches.length ∧
      last.ring.bare = cascade.ring.bare ∧
      last.ring.oscillator.nodes =
        cascade.ring.oscillator.nodes ++ stageNodes cascade.chain branches.length ∧
      last.ring.oscillator.generators =
        cascade.ring.oscillator.generators ++ stageGenerators cascade.chain branches.length ∧
      nodes.map Node.unnumbered = branches.flatMap
        (branchScore cascade.ring.memos cascade.graph.rate frequency none none) ∧
      last.ring.oscillator.memo = cascade.ring.oscillator.memo ∧
      last.ring.memos.map (Option.map WaveMemo.unnumbered) =
        cascade.ring.memos.mapIdx (askedAt branches cascade.graph.rate) := by
  induction branches generalizing cascade with
  | nil =>
    refine ⟨cascade, [], rfl, ready, .nil, (Graph.Reported.refl _).grown ready.wellFormed, rfl, ?_,
      rfl, ?_, ?_, rfl, rfl, ?_⟩
    case refine_4 => exact List.ext_getElem? fun i => by simp [askedAt_of_absent]
    all_goals simp [stageGenerators, stageNodes]
  | cons branch rest ih =>
    obtain ⟨absent, once⟩ := List.nodup_cons.mp once
    obtain ⟨next, first, added, next_ready, shown, grown, chain, generators, bare, nodes,
      tracked, scored, memo, made, memos, asked⟩ := ready.add frequency branch
    obtain ⟨last, others, run, last_ready, shown', grown', chain', generators', bare', nodes',
      tracked', scored', memo', memos'⟩ := ih next_ready once
    have control : next.ring.oscillator.control = cascade.ring.oscillator.control :=
      congrArg (·.oscillator.control) bare
    rw [grown.rate] at shown'
    rw [chain, control] at grown'
    -- no other branch asks the memo of this one
    have others_ask (b : Branch) (mem : b ∈ rest) :
        next.ring.memos[b.index]? = cascade.ring.memos[b.index]? := by
      have differs : branch.index ≠ b.index := fun same =>
        absent (List.mem_map.mpr ⟨b, mem, same.symm⟩)
      rw [memos, List.getElem?_set_ne differs]
    refine ⟨last, first ++ others, ?_, last_ready, ?_, grown.trans grown', ?_, ?_,
      bare'.trans bare, ?_, ?_, ?_, memo'.trans memo, ?_⟩
    · rw [List.foldlM_cons, added]
      exact run
    · exact List.rel_append shown shown'
    · rw [chain', chain, List.length_cons]
      simp only [NodeKey]
      omega
    · rw [generators', generators, chain, List.append_assoc]
      rfl
    · rw [nodes', nodes, chain, List.append_assoc]
      rfl
    · rw [tracked', tracked, chain, List.append_assoc]
      rfl
    · rw [List.map_append, scored, scored', List.flatMap_cons, grown.rate]
      congr 1
      refine List.flatMap_congr fun b mem => ?_
      simp only [branchScore, others_ask b mem]
    · rw [memos', memos, grown.rate]
      refine List.ext_getElem? fun i => ?_
      by_cases here : branch.index = i
      · subst here
        rw [List.getElem?_mapIdx, List.getElem?_mapIdx, askedAt_of_absent absent,
          List.getElem?_set_self']
        cases kept : cascade.ring.memos[branch.index]? with
        | none => rfl
        | some memo => simp [askedAt_cons_self, asked, kept]
      · rw [List.getElem?_mapIdx, List.getElem?_mapIdx, askedAt_cons_of_ne here,
          List.getElem?_set_ne here]

end Cascade

/-- What is needed to build voices: the nodes of the ring live, and its memos are sound. -/
structure Playable (ring : RingOscillator) (graph : Graph τ) : Prop where
  wellFormed : graph.WellFormed
  fits : binCount graph.rate ≤ Partials.maxBins
  kept : ∀ memo, ring.Keeps memo → memo.Made graph.rate
  control : ∃ level, graph.node? ring.oscillator.control = some (.constant level)
  output : ∃ factor, graph.node? ring.oscillator.output = some (.gain factor)

/-- A voice of a ring. -/
theorem build_spec {ring : RingOscillator} {graph : Graph τ} (playable : ring.Playable graph)
    (frequency : Float32) :
    ∃ built after nodes, ring.build graph frequency = .ok (
        ⟨graph.nodes.size, voiceGenerators graph.nodes.size ring.branches.length⟩, built, after) ∧
      List.Forall₂ (Component.Shown graph.rate)
        (Sheet.mk ring.oscillator.partials ring.branches frequency none none).components nodes ∧
      graph.Grown after nodes (voiceWires ring.oscillator.output ring.oscillator.control
        graph.nodes.size ring.branches.length) ∧
      (∀ memo, built.Keeps memo → memo.Made graph.rate) ∧ built.bare = ring.bare ∧
      built.oscillator.nodes =
        ring.oscillator.nodes ++ voiceNodes graph.nodes.size ring.branches.length ∧
      built.oscillator.generators =
        ring.oscillator.generators ++ voiceGenerators graph.nodes.size ring.branches.length ∧
      nodes.map Node.unnumbered = ring.score graph.rate frequency none none ∧
      built.memory = ring.recalled graph.rate := by
  obtain ⟨wellFormed, fits, kept, ⟨level, control⟩, ⟨factor, output⟩⟩ := playable
  obtain ⟨made, node, spawned, spawn, is_made, shown, grown, asked, cued⟩ :=
    ring.oscillator.spawn_spec wellFormed fits (fun m mem => kept m (.inl mem)) control frequency
  obtain ⟨generator, is_generator, -⟩ := id shown
  have carrier : spawned.node? graph.nodes.size = some (.generator generator) := by
    have new := grown.node?_new 0
    simpa [is_generator] using new
  have ready : Cascade.Ready ⟨reserve { ring with
      oscillator := { ring.oscillator with
        memo := some made
        nodes := ring.oscillator.nodes ++ [graph.nodes.size]
        generators := ring.oscillator.generators ++ [graph.nodes.size] } },
      spawned, [graph.nodes.size], graph.nodes.size⟩ := by
    constructor
    case wellFormed => exact grown.wellFormed
    case fits => exact grown.rate ▸ fits
    case kept =>
      intro memo keeps
      dsimp only
      rw [grown.rate]
      rcases keeps with same | mem
      · exact Option.some.inj same ▸ is_made
      · simp only [reserve, List.rightpad, List.mem_append, List.mem_replicate] at mem
        exact kept memo (.inr (by simpa using mem))
    case control => exact ⟨level, grown.lives control⟩
    case chained => exact ⟨_, carrier, rfl⟩
    case latest => exact grown.size
  obtain ⟨last, nodes, run, last_ready, shown', grown', chain, generators, bare, counted,
    tracked, scored, memo, memos⟩ := ready.addAll frequency ring.branches ring.index_branches_nodup
  dsimp only [reserve] at shown' grown' chain generators bare counted tracked scored memo memos
  rw [grown.rate] at shown' scored memos
  have whole := grown.trans grown'
  have output_lives := whole.lives output
  obtain ⟨chain_node, chained, has_output⟩ := last_ready.chained
  have same_output : last.ring.oscillator.output = ring.oscillator.output :=
    congrArg (·.oscillator.output) bare
  have later : graph.nodes.size ≤ last.chain := by
    rw [chain]
    exact Nat.le_add_right _ _
  have apart : last.chain ≠ ring.oscillator.output :=
    (Nat.ne_of_lt (Nat.lt_of_lt_of_le (Graph.lt_size_of_node? output) later)).symm
  have new : (⟨last.chain, ring.oscillator.output, .audio⟩ : Connection) ∉
      last.graph.connections := by
    rw [whole.connections, List.mem_append, List.mem_append, not_or, not_or]
    refine ⟨wellFormed.not_mem_of_size_le (.inl later), by simp, fun mem => ?_⟩
    have target := (mem_stageNodes.mp (ends_of_mem_stageWires mem).2).1
    exact Nat.lt_asymm target (Graph.lt_size_of_node? output)
  have connected := Graph.grown_connect _ last_ready.wellFormed .audio chained has_output
    output_lives rfl apart new
  have all := whole.trans connected
  rw [chain, List.append_nil] at all
  refine ⟨last.ring, _, node :: nodes, ?_, .cons shown shown', all, ?_, bare, ?_, ?_, ?_, ?_⟩
  · simp only [RingOscillator.build, spawn, bind, Except.bind, run, generators, same_output, chain]
    rfl
  · intro memo keeps
    have made := last_ready.kept memo keeps
    rwa [whole.rate] at made
  · rw [counted, List.append_assoc]
    rfl
  · rw [tracked, List.append_assoc]
    rfl
  · rw [List.map_cons, cued, asked, scored]
    rfl
  · simp only [memory, memo, memos, Option.map_some, asked]
    rfl

/-- Where buffers cannot be allocated and no wave was kept, there is no voice. -/
theorem build_eq_error {ring : RingOscillator} {graph : Graph τ}
    (large : Partials.maxBins < binCount graph.rate) (no_memo : ring.oscillator.memo = none)
    (frequency : Float32) :
    ring.build graph frequency = .error (.bufferTooLarge (binCount graph.rate)) := by
  simp only [RingOscillator.build, Oscillator.spawn, Oscillator.wave, no_memo,
    WaveMemo.wave_eq_error large, bind, Except.bind]

end RingOscillator

theorem RingOscillator.map_armed_score (ring : RingOscillator) (rate frequency : Float32)
    (starts stops : τ) : (ring.score rate frequency none none).map
      (Node.mapGenerator (·.armed starts stops)) =
        ring.score rate frequency (some starts) (some stops) := by
  simp only [RingOscillator.score, List.map_cons, List.map_flatMap]
  rfl

section Scheduling

variable [TimeAxis τ]

/-- What the voice of a ring for a note is to be. -/
def RingOscillator.sheet (ring : RingOscillator) (now position : τ) (note : Note τ) : Sheet τ where
  timbre := ring.oscillator.partials
  branches := ring.branches
  frequency := ring.oscillator.pitch note
  starts := some (now + (note.delays position).start)
  stops := some (now + (note.delays position).stop)

/-- A note adds a voice that is armed. -/
theorem RingOscillator.schedule_spec {ring : RingOscillator} {graph : Graph τ}
    (playable : ring.Playable graph) (note : Note τ) (position : τ) :
    ∃ scheduled after nodes, ring.schedule graph note position =
        .ok (note.delays position, scheduled, after) ∧
      List.Forall₂ (Component.Shown graph.rate)
        (ring.sheet graph.now position note).components nodes ∧
      graph.Grown after nodes (voiceWires ring.oscillator.output ring.oscillator.control
        graph.nodes.size ring.branches.length) ∧
      (∀ memo, scheduled.Keeps memo → memo.Made graph.rate) ∧ scheduled.bare = ring.bare ∧
      scheduled.oscillator.nodes =
        ring.oscillator.nodes ++ voiceNodes graph.nodes.size ring.branches.length ∧
      scheduled.oscillator.generators =
        ring.oscillator.generators ++ voiceGenerators graph.nodes.size ring.branches.length ∧
      nodes.map Node.unnumbered = ring.score graph.rate (ring.oscillator.pitch note)
        (some (graph.now + (note.delays position).start))
        (some (graph.now + (note.delays position).stop)) ∧
      scheduled.memory = ring.recalled graph.rate := by
  obtain ⟨built, middle, nodes, build, shown, grown, kept, bare, counted, tracked, scored,
    recalled⟩ :=
    RingOscillator.build_spec playable (ring.oscillator.pitch note)
  obtain ⟨armed, arm, view, size, connections, clock, wellFormed⟩ :=
    middle.arm_spec (voiceGenerators graph.nodes.size ring.branches.length)
      (graph.now + (note.delays position).start) (graph.now + (note.delays position).stop)
  have same_now : middle.now = graph.now := by
    simp only [Graph.now, grown.clock]
  have new (key : NodeKey) (mem : key ∈ voiceGenerators graph.nodes.size ring.branches.length) :
      graph.nodes.size ≤ key :=
    (mem_voiceNodes.mp ((voiceGenerators_sublist _ _).subset mem)).1
  have grown' := grown.arm new (fun i node here => (Sheet.kind_of_shown shown here).mpr) view size
    connections clock (wellFormed grown.wellFormed)
  have reported := (armed.reported_log (.noteScheduled graph.nodes.size
    (note.delays position).start (note.delays position).stop)).grown grown'.wellFormed
  have whole := grown'.trans reported
  rw [List.append_nil, List.append_nil] at whole
  refine ⟨built, _, _, ?_, ?_, whole, kept, bare, counted, tracked, ?_, recalled⟩
  · simp only [RingOscillator.schedule, Voice.arm, build, bind, Except.bind, same_now, arm]
  · have shown' := forall₂_shown_armed shown (graph.now + (note.delays position).start)
      (graph.now + (note.delays position).stop)
    rwa [Sheet.map_armed_components] at shown'
  · rw [← ring.map_armed_score, ← scored, List.map_map, List.map_map]
    refine List.map_congr_left fun node _ => ?_
    cases node <;> rfl

theorem RingOscillator.schedule_eq_error {ring : RingOscillator} {graph : Graph τ}
    (large : Partials.maxBins < binCount graph.rate) (no_memo : ring.oscillator.memo = none)
    (note : Note τ) (position : τ) :
    ring.schedule graph note position = .error (.bufferTooLarge (binCount graph.rate)) := by
  simp only [RingOscillator.schedule, RingOscillator.build_eq_error large no_memo, bind,
    Except.bind]

end Scheduling

end Patchbay
