import Mathlib.Data.List.Perm.Basic
import Mathlib.Logic.Function.Basic
import Patchbay.Proofs.Graph.Growth
import Patchbay.Wave.Transform

/-!
# Voices that are given up

Whatever an oscillator is connected to, a voice touches nothing but nodes that come with it, and the
oscillator counts all of these. So to free the oscillators that built voices in a graph, in any
order, leaves the graph as it was before, and to free some of them takes out what they built and
nothing else.
-/
namespace Patchbay

variable {τ : Type}

/-! ### Changes from a key on -/

namespace Graph

/-- From a key on, nodes are added or changed and connections made. Nothing else is changed. -/
structure ChangedFrom (base : NodeKey) (before after : Graph τ) : Prop where
  size : before.nodes.size ≤ after.nodes.size
  old : ∀ key < base, after.node? key = before.node? key
  wires : ∃ wires, after.connections = before.connections ++ wires ∧
    ∀ c ∈ wires, base ≤ c.source ∨ base ≤ c.target
  wellFormed : before.WellFormed → after.WellFormed

variable {base below : NodeKey} {graph middle after : Graph τ}

theorem ChangedFrom.refl (base : NodeKey) (graph : Graph τ) : graph.ChangedFrom base graph :=
  ⟨Nat.le_refl _, fun _ _ => rfl, ⟨[], by simp, by simp⟩, id⟩

theorem ChangedFrom.trans (first : graph.ChangedFrom base middle)
    (second : middle.ChangedFrom base after) : graph.ChangedFrom base after where
  size := Nat.le_trans first.size second.size
  old := fun key lt => (second.old key lt).trans (first.old key lt)
  wires := by
    obtain ⟨wires, connections, new⟩ := first.wires
    obtain ⟨more, connections', new'⟩ := second.wires
    refine ⟨wires ++ more, ?_, List.forall_mem_append.mpr ⟨new, new'⟩⟩
    rw [connections', connections, List.append_assoc]
  wellFormed := fun well => second.wellFormed (first.wellFormed well)

theorem ChangedFrom.lower (changed : graph.ChangedFrom base after) (le : below ≤ base) :
    graph.ChangedFrom below after where
  size := changed.size
  old := fun key lt => changed.old key (Nat.lt_of_lt_of_le lt le)
  wires := by
    obtain ⟨wires, connections, new⟩ := changed.wires
    exact ⟨wires, connections, fun c mem =>
      (new c mem).imp (Nat.le_trans le) (Nat.le_trans le)⟩
  wellFormed := changed.wellFormed

theorem Reported.size (reported : graph.Reported after) :
    after.nodes.size = graph.nodes.size := by
  obtain ⟨_, _, rfl⟩ := reported
  rfl

theorem Reported.changedFrom (reported : graph.Reported after) (base : NodeKey) :
    graph.ChangedFrom base after where
  size := Nat.le_of_eq reported.size.symm
  old := fun key _ => reported.node? key
  wires := by
    obtain ⟨_, _, rfl⟩ := reported
    exact ⟨[], by simp, by simp⟩
  wellFormed := reported.wellFormed

theorem changedFrom_add (graph : Graph τ) (le : base ≤ graph.nodes.size) (node : Node τ)
    (kind : node.kind ≠ .destination) : graph.ChangedFrom base (graph.add node).2 where
  size := by simp
  old := by
    intro key lt
    have apart : key ≠ graph.nodes.size := Nat.ne_of_lt (Nat.lt_of_lt_of_le lt le)
    rw [node?_add, if_neg apart]
  wires := ⟨[], by simp, by simp⟩
  wellFormed := fun well => well.add kind

theorem changedFrom_setValue (graph : Graph τ) {key : NodeKey} (le : base ≤ key) (knob : Knob)
    (value : Float32) : graph.ChangedFrom base (graph.setValue key knob value).1 where
  size := by simp
  old := by
    intro other lt
    rw [node?_setValue, if_neg (Nat.ne_of_lt (Nat.lt_of_lt_of_le lt le))]
  wires := ⟨[], by simp, by simp⟩
  wellFormed := fun well => well.setValue key knob value

theorem changedFrom_modifyGenerator (graph : Graph τ) {key : NodeKey} (le : base ≤ key)
    (f : Generator τ → Generator τ) :
    graph.ChangedFrom base (graph.modifyGenerator key f).1 where
  size := by simp
  old := by
    intro other lt
    rw [node?_modifyGenerator, if_neg (Nat.ne_of_lt (Nat.lt_of_lt_of_le lt le))]
  wires := ⟨[], by simp, by simp⟩
  wellFormed := fun well => well.modifyGenerator key f

theorem changedFrom_connect (graph : Graph τ) {source target : NodeKey}
    (new : base ≤ source ∨ base ≤ target) (inlet : Inlet) :
    graph.ChangedFrom base (graph.connect source target inlet).1 where
  size := by simp
  old := fun key _ => node?_connect ..
  wires := by
    rw [connections_connect]
    split
    · exact ⟨[⟨source, target, inlet⟩], rfl, by simpa using new⟩
    · exact ⟨[], by simp, by simp⟩
  wellFormed := fun well => well.connect source target inlet

/-- Where just what is new goes, with the connections that touch it, a graph is as it was. -/
theorem ChangedFrom.undone (changed : graph.ChangedFrom graph.nodes.size after)
    (well : graph.WellFormed) (gone : NodeKey → Prop) [DecidablePred gone]
    (only : ∀ key, gone key → graph.nodes.size ≤ key)
    (all : ∀ key, graph.nodes.size ≤ key → key < after.nodes.size → gone key) :
    (∀ key, (if gone key then none else after.node? key) = graph.node? key) ∧
      after.connections.filter (fun c => ¬ gone c.source ∧ ¬ gone c.target) =
        graph.connections := by
  constructor
  · intro key
    split
    · rename_i here
      exact (graph.node?_of_size_le (only key here)).symm
    · rename_i spared
      by_cases lt : key < graph.nodes.size
      · exact changed.old key lt
      · have le : graph.nodes.size ≤ key := Nat.not_lt.mp lt
        have beyond : after.nodes.size ≤ key :=
          Nat.not_lt.mp fun issued => spared (all key le issued)
        rw [after.node?_of_size_le beyond, graph.node?_of_size_le le]
  · obtain ⟨wires, same, new⟩ := changed.wires
    have kept : graph.connections.filter (fun c => ¬ gone c.source ∧ ¬ gone c.target) =
        graph.connections := by
      refine List.filter_eq_self.mpr fun c mem => decide_eq_true ?_
      obtain ⟨source, target⟩ := well.lt_size mem
      exact ⟨fun here => Nat.not_le.mpr source (only _ here),
        fun here => Nat.not_le.mpr target (only _ here)⟩
    have cut : wires.filter (fun c => ¬ gone c.source ∧ ¬ gone c.target) = [] := by
      refine List.filter_eq_nil_iff.mpr fun c mem keeps => ?_
      have spared := of_decide_eq_true keeps
      obtain ⟨source, target⟩ :=
        (changed.wellFormed well).lt_size (same ▸ List.mem_append_right _ mem)
      exact (new c mem).elim (fun le => spared.1 (all _ le source))
        fun le => spared.2 (all _ le target)
    rw [same, List.filter_append, kept, cut, List.append_nil]

/-- The keys that were issued from one graph to a later one. -/
def keysSince (before after : Graph τ) : List NodeKey :=
  List.range' before.nodes.size (after.nodes.size - before.nodes.size)

theorem keysSince_self (graph : Graph τ) : graph.keysSince graph = [] := by
  simp [keysSince]

theorem mem_keysSince {key : NodeKey} (le : graph.nodes.size ≤ after.nodes.size) :
    key ∈ graph.keysSince after ↔ graph.nodes.size ≤ key ∧ key < after.nodes.size := by
  rw [keysSince, List.mem_range'_1, Nat.add_sub_of_le le]

theorem keysSince_append (first : graph.nodes.size ≤ middle.nodes.size)
    (second : middle.nodes.size ≤ after.nodes.size) :
    graph.keysSince after = graph.keysSince middle ++ middle.keysSince after := by
  have start : middle.nodes.size = graph.nodes.size + (middle.nodes.size - graph.nodes.size) := by
    omega
  have parts : after.nodes.size - graph.nodes.size =
      middle.nodes.size - graph.nodes.size + (after.nodes.size - middle.nodes.size) := by omega
  rw [keysSince, parts, ← List.range'_append_1, ← start]
  rfl

end Graph

/-! ### What a voice adds -/

theorem WaveMemo.reported_wave [Fourier] {memo : Option WaveMemo} {graph after : Graph τ}
    {partials : Partials} {made : WaveMemo}
    (given : WaveMemo.wave memo graph partials = .ok (made, after)) : graph.Reported after := by
  unfold WaveMemo.wave at given
  split at given
  · cases given
    exact .refl graph
  · simp only [Fault.bind_ok_iff] at given
    obtain ⟨real, -, imag, -, given⟩ := given
    obtain ⟨waves, journal, same⟩ := graph.reported_logAll (imag.events (τ := τ) graph.rate)
    rw [same] at given
    cases given
    exact ⟨_, _, rfl⟩

theorem Voice.changedFrom_arm [TimeAxis τ] {voice : Voice} {base : NodeKey}
    (new : ∀ key ∈ voice.generators, base ≤ key) (graph : Graph τ) (note : Note τ) (position : τ) :
    graph.ChangedFrom base (voice.arm graph note position).2 ∧
      (voice.arm graph note position).2.nodes.size = graph.nodes.size := by
  have told (armed : Graph τ) (event : Event τ)
      (done : graph.ChangedFrom base armed ∧ armed.nodes.size = graph.nodes.size) :
      graph.ChangedFrom base (armed.log event) ∧
        (armed.log event).nodes.size = graph.nodes.size :=
    ⟨done.1.trans ((armed.reported_log event).changedFrom base), done.2⟩
  refine told _ _ (List.foldlRecOn (motive := fun armed : Graph τ =>
    graph.ChangedFrom base armed ∧ armed.nodes.size = graph.nodes.size) voice.generators _
      ⟨.refl base graph, rfl⟩ ?_)
  rintro armed ⟨changed, size⟩ key mem
  refine ⟨(changed.trans (armed.changedFrom_modifyGenerator (new key mem) _)).trans
    (Graph.changedFrom_modifyGenerator _ (new key mem) _), ?_⟩
  simp [Graph.armStop, Graph.armStart, size]

namespace Oscillator

variable [Fourier] {oscillator next : Oscillator} {graph after : Graph τ} {frequency : Float32}
  {key : NodeKey} {voice : Voice}

/-- A generator is one new node, and it is counted. -/
theorem changedFrom_spawn (spawned : oscillator.spawn graph frequency = .ok (key, next, after)) :
    key = graph.nodes.size ∧ after.nodes.size = graph.nodes.size + 1 ∧
      graph.ChangedFrom graph.nodes.size after ∧ next.nodes = oscillator.nodes ++ [key] ∧
      next.output = oscillator.output ∧ next.control = oscillator.control := by
  simp only [spawn, Oscillator.wave, Fault.bind_ok_iff] at spawned
  obtain ⟨_, ⟨⟨made, told⟩, given, same⟩, spawned⟩ := spawned
  cases same
  have reported := WaveMemo.reported_wave given
  have size : told.nodes.size = graph.nodes.size := reported.size
  cases spawned
  have le : graph.nodes.size ≤ told.nodes.size := Nat.le_of_eq size.symm
  have added := told.changedFrom_add le (.generator (Generator.playing made.shared))
    (by simp [Node.kind])
  refine ⟨size, by simp [Graph.addGenerator, size], ?_, rfl, rfl, rfl⟩
  exact (((reported.changedFrom _).trans added).trans
    (Graph.changedFrom_setValue _ le .frequency frequency)).trans
      (Graph.changedFrom_connect _ (.inr le) _)

/-- A voice of an oscillator is its generator. -/
theorem changedFrom_build (built : oscillator.build graph frequency = .ok (voice, next, after)) :
    voice = ⟨graph.nodes.size, [graph.nodes.size]⟩ ∧ after.nodes.size = graph.nodes.size + 1 ∧
      graph.ChangedFrom graph.nodes.size after ∧
      next.nodes = oscillator.nodes ++ [graph.nodes.size] ∧
      next.output = oscillator.output ∧ next.control = oscillator.control := by
  simp only [build, Fault.bind_ok_iff] at built
  obtain ⟨⟨key, spawned, middle⟩, spawn, built⟩ := built
  cases built
  obtain ⟨rfl, size, changed, nodes, output, control⟩ := changedFrom_spawn spawn
  exact ⟨rfl, by simp [size],
    changed.trans (Graph.changedFrom_connect _ (.inl (Nat.le_refl _)) _), nodes, output, control⟩

end Oscillator

namespace RingOscillator

variable [Fourier] {ring next : RingOscillator} {graph after : Graph τ} {frequency : Float32}
  {voice : Voice}

/-- A voice while its stages are added to a graph: all its nodes are new, and the ring counts all
new nodes besides those that it counted before. -/
structure Cascade.Extends (cascade : Cascade τ) (graph : Graph τ) (ring : RingOscillator) :
    Prop where
  changed : graph.ChangedFrom graph.nodes.size cascade.graph
  chain : graph.nodes.size ≤ cascade.chain
  generators : ∀ key ∈ cascade.generators, graph.nodes.size ≤ key
  nodes : cascade.ring.oscillator.nodes.Perm
    (ring.oscillator.nodes ++ graph.keysSince cascade.graph)
  output : cascade.ring.oscillator.output = ring.oscillator.output
  control : cascade.ring.oscillator.control = ring.oscillator.control

/-- A stage is three new nodes, and they are counted. -/
theorem Cascade.Extends.add {cascade last : Cascade τ} (extend : cascade.Extends graph ring)
    {branch : Branch} (added : cascade.add frequency branch = .ok last) :
    last.Extends graph ring := by
  simp only [Cascade.add, Fault.bind_ok_iff] at added
  obtain ⟨⟨voice, modulator, middle⟩, built, added⟩ := added
  obtain ⟨rfl, size, changed, nodes, output, -⟩ := Oscillator.changedFrom_build built
  have weighed : (cascade.graph.addGain branch.weight).2.nodes.size =
      cascade.graph.nodes.size + 1 := by simp [Graph.addGain]
  replace nodes : modulator.nodes = [cascade.graph.nodes.size + 1] := by
    rw [nodes, weighed]
    rfl
  replace output : modulator.output = cascade.graph.nodes.size := output
  rw [weighed] at size changed
  have grown : graph.nodes.size ≤ cascade.graph.nodes.size := extend.changed.size
  have room : graph.nodes.size ≤ middle.nodes.size := by
    rw [size]
    omega
  have sized : last.graph.nodes.size = cascade.graph.nodes.size + 3 := by
    cases added
    simp [Graph.addGain, size]
  have tracked : last.ring.oscillator.nodes = cascade.ring.oscillator.nodes ++
      [cascade.graph.nodes.size + 1, cascade.graph.nodes.size, cascade.graph.nodes.size + 2] := by
    cases added
    simp [Oscillator.track, Oscillator.absorb, nodes, output, Graph.addGain, size]
  have new : cascade.graph.keysSince last.graph =
      [cascade.graph.nodes.size, cascade.graph.nodes.size + 1, cascade.graph.nodes.size + 2] := by
    simp [Graph.keysSince, sized, List.range']
  have weight := cascade.graph.changedFrom_add grown (.gain branch.weight) (by simp [Node.kind])
  have stage := middle.changedFrom_add room (.gain 1.0) (by simp [Node.kind])
  refine ⟨?_, ?_, ?_, ?_, ?_, ?_⟩
  · cases added
    exact ((((extend.changed.trans weight).trans (changed.lower (Nat.le_succ_of_le grown))).trans
      stage).trans (Graph.changedFrom_connect _ (.inr room) _)).trans
        (Graph.changedFrom_connect _ (.inr room) _)
  · cases added
    exact room
  · cases added
    refine List.forall_mem_append.mpr ⟨extend.generators, ?_⟩
    simp only [weighed, List.mem_singleton, forall_eq]
    omega
  · rw [tracked, Graph.keysSince_append grown (sized ▸ Nat.le_add_right _ _), new,
      ← List.append_assoc]
    exact extend.nodes.append (.swap ..)
  · cases added
    exact extend.output
  · cases added
    exact extend.control

theorem Cascade.Extends.addAll {branches : List Branch} {cascade last : Cascade τ}
    (extend : cascade.Extends graph ring)
    (added : branches.foldlM (Cascade.add frequency) cascade = .ok last) :
    last.Extends graph ring := by
  induction branches generalizing cascade with
  | nil =>
    cases added
    exact extend
  | cons branch rest ih =>
    rw [List.foldlM_cons, Fault.bind_ok_iff] at added
    obtain ⟨next, first, added⟩ := added
    exact ih (extend.add first) added

/-- A voice of a ring is new nodes, and they are counted. -/
theorem changedFrom_build (built : ring.build graph frequency = .ok (voice, next, after)) :
    graph.ChangedFrom graph.nodes.size after ∧
      (∀ key ∈ voice.generators, graph.nodes.size ≤ key) ∧
      next.oscillator.nodes.Perm (ring.oscillator.nodes ++ graph.keysSince after) ∧
      next.oscillator.output = ring.oscillator.output ∧
      next.oscillator.control = ring.oscillator.control := by
  simp only [build, Fault.bind_ok_iff] at built
  obtain ⟨⟨carrier, oscillator, middle⟩, spawned, cascade, added, built⟩ := built
  obtain ⟨rfl, size, changed, nodes, output, control⟩ := Oscillator.changedFrom_spawn spawned
  have begun : Cascade.Extends
      ⟨reserve { ring with oscillator }, middle, [graph.nodes.size], graph.nodes.size⟩ graph
      ring := by
    refine ⟨changed, Nat.le_refl _, by simp, ?_, output, control⟩
    have new : graph.keysSince middle = [graph.nodes.size] := by simp [Graph.keysSince, size]
    rw [new, ← nodes]
    rfl
  have extend : cascade.Extends graph ring := begun.addAll added
  cases built
  refine ⟨extend.changed.trans (Graph.changedFrom_connect _ (.inl extend.chain) _),
    extend.generators, ?_, extend.output, extend.control⟩
  simpa [Graph.keysSince] using extend.nodes

/-- So is a note that is scheduled. The ring keeps its output stage and its control. -/
theorem changedFrom_schedule [TimeAxis τ] {note : Note τ} {position : τ} {delays : Delays τ}
    (scheduled : ring.schedule graph note position = .ok (delays, next, after)) :
    graph.ChangedFrom graph.nodes.size after ∧
      next.oscillator.output = ring.oscillator.output ∧
      next.oscillator.control = ring.oscillator.control := by
  simp only [schedule, Fault.bind_ok_iff] at scheduled
  obtain ⟨⟨voice, built, middle⟩, build, given⟩ := scheduled
  obtain ⟨changed, new, -, kept⟩ := changedFrom_build build
  cases given
  exact ⟨changed.trans (Voice.changedFrom_arm new middle note position).1, kept⟩

end RingOscillator

/-! ### Engines -/

/-- An oscillator, with or without modulators. -/
inductive Engine where
  | plain (oscillator : Oscillator)
  | modulated (ring : RingOscillator)

namespace Engine

variable {engine next : Engine} {graph after : Graph τ}

/-- The oscillator that counts the nodes of all voices. -/
def oscillator : Engine → Oscillator
  | .plain oscillator => oscillator
  | .modulated ring => ring.oscillator

section Voices

variable [Fourier]

/-- Build a voice. -/
def build (engine : Engine) (graph : Graph τ) (frequency : Float32) :
    Except Fault (Voice × Engine × Graph τ) :=
  match engine with
  | .plain oscillator => do
    let (voice, oscillator, graph) ← oscillator.build graph frequency
    .ok (voice, .plain oscillator, graph)
  | .modulated ring => do
    let (voice, ring, graph) ← ring.build graph frequency
    .ok (voice, .modulated ring, graph)

/-- Build a voice for a note and arm it. -/
def schedule [TimeAxis τ] (engine : Engine) (graph : Graph τ) (note : Note τ) (position : τ) :
    Except Fault (Delays τ × Engine × Graph τ) :=
  match engine with
  | .plain oscillator => do
    let (delays, oscillator, graph) ← oscillator.schedule graph note position
    .ok (delays, .plain oscillator, graph)
  | .modulated ring => do
    let (delays, ring, graph) ← ring.schedule graph note position
    .ok (delays, .modulated ring, graph)

/-- Replace the modulators, where there can be some. -/
def modulate (engine : Engine) (graph : Graph τ) (signals : List Partials)
    (weights : List Float32) : Engine × Graph τ :=
  match engine with
  | .plain oscillator => (.plain oscillator, graph)
  | .modulated ring =>
    let (ring, graph) := ring.modulate graph signals weights
    (.modulated ring, graph)

/-- Remove all voices. -/
def free (engine : Engine) (graph : Graph τ) : Engine × Graph τ :=
  match engine with
  | .plain oscillator =>
    let (oscillator, graph) := oscillator.free graph
    (.plain oscillator, graph)
  | .modulated ring =>
    let (ring, graph) := ring.free graph
    (.modulated ring, graph)

/-- An engine changes nothing but nodes that come, and it counts all of these. -/
structure Gains (engine next : Engine) (graph after : Graph τ) : Prop where
  changed : graph.ChangedFrom graph.nodes.size after
  nodes : next.oscillator.nodes.Perm (engine.oscillator.nodes ++ graph.keysSince after)

omit [Fourier] in
theorem Gains.refl (engine : Engine) (graph : Graph τ) : engine.Gains engine graph graph :=
  ⟨.refl .., by rw [Graph.keysSince_self, List.append_nil]⟩

theorem gains_build {voice : Voice} {frequency : Float32}
    (built : engine.build graph frequency = .ok (voice, next, after)) :
    engine.Gains next graph after ∧ ∀ key ∈ voice.generators, graph.nodes.size ≤ key := by
  cases engine with
  | plain oscillator =>
    simp only [build, Fault.bind_ok_iff] at built
    obtain ⟨⟨_, spent, _⟩, built, given⟩ := built
    obtain ⟨rfl, size, changed, nodes, -⟩ := Oscillator.changedFrom_build built
    cases given
    refine ⟨⟨changed, .of_eq ?_⟩, by simp⟩
    simp [Graph.keysSince, size, Engine.oscillator, nodes]
  | modulated ring =>
    simp only [build, Fault.bind_ok_iff] at built
    obtain ⟨⟨_, spent, _⟩, built, given⟩ := built
    obtain ⟨changed, new, nodes, -⟩ := RingOscillator.changedFrom_build built
    cases given
    exact ⟨⟨changed, nodes⟩, new⟩

/-- To schedule a note is to build a voice at some frequency and to arm it. -/
theorem schedule_eq [TimeAxis τ] (engine : Engine) (graph : Graph τ) (note : Note τ)
    (position : τ) : engine.schedule graph note position =
      engine.build graph (engine.oscillator.pitch note) >>= fun built =>
        .ok ((built.1.arm built.2.2 note position).1, built.2.1,
          (built.1.arm built.2.2 note position).2) := by
  cases engine with
  | plain oscillator =>
    simp only [schedule, build, Oscillator.schedule, Engine.oscillator]
    cases oscillator.build graph (oscillator.pitch note) <;> rfl
  | modulated ring =>
    simp only [schedule, build, RingOscillator.schedule, Engine.oscillator]
    cases ring.build graph (ring.oscillator.pitch note) <;> rfl

theorem gains_schedule [TimeAxis τ] {note : Note τ} {position : τ} {delays : Delays τ}
    (scheduled : engine.schedule graph note position = .ok (delays, next, after)) :
    engine.Gains next graph after := by
  rw [schedule_eq, Fault.bind_ok_iff] at scheduled
  obtain ⟨⟨voice, spent, middle⟩, built, given⟩ := scheduled
  obtain ⟨gains, new⟩ := gains_build built
  cases given
  obtain ⟨changed, size⟩ := Voice.changedFrom_arm new middle note position
  refine ⟨gains.changed.trans changed, ?_⟩
  simpa [Graph.keysSince, size] using gains.nodes

end Voices

theorem gains_modulate (engine : Engine) (graph : Graph τ) (signals : List Partials)
    (weights : List Float32) : engine.Gains (engine.modulate graph signals weights).1 graph
      (engine.modulate graph signals weights).2 := by
  cases engine with
  | plain oscillator => exact .refl ..
  | modulated ring =>
    have reported : graph.Reported (ring.modulate graph signals weights).2 := by
      simp only [RingOscillator.modulate]
      split
      · exact .refl graph
      · exact graph.reported_log _
    have none_new : graph.keysSince (ring.modulate graph signals weights).2 = [] := by
      simp [Graph.keysSince, reported.size]
    refine ⟨reported.changedFrom _, .of_eq ?_⟩
    show ring.oscillator.nodes = ring.oscillator.nodes ++ _
    rw [modulate, none_new, List.append_nil]

theorem snd_free (engine : Engine) (graph : Graph τ) : (engine.free graph).2 =
    engine.oscillator.nodes.foldl (fun graph key => (graph.remove key).1) graph := by
  cases engine <;> rfl

/-- What is freed of an engine is the same in every graph. -/
theorem fst_free_congr (engine : Engine) (graph other : Graph τ) :
    (engine.free graph).1 = (engine.free other).1 := by
  cases engine <;> rfl

/-- An engine that was freed counts no nodes. -/
theorem oscillator_free (engine : Engine) (graph : Graph τ) : (engine.free graph).1.oscillator =
    { engine.oscillator with nodes := [], generators := [] } := by
  cases engine <;> rfl

/-- To free it once more changes nothing. -/
theorem free_free (engine : Engine) (graph other : Graph τ) :
    (engine.free graph).1.free other = ((engine.free graph).1, other) := by
  cases engine <;> rfl

end Engine

/-! ### Choirs -/

/-- Engines that sing in one graph. -/
structure Choir (ι τ : Type) where
  engines : ι → Engine
  graph : Graph τ

namespace Choir

variable {ι : Type}

/-- What can be asked of an engine. -/
inductive Call (ι τ : Type) where
  | build (engine : ι) (frequency : Float32)
  | schedule (engine : ι) (note : Note τ) (position : τ)
  | modulate (engine : ι) (signals : List Partials) (weights : List Float32)

/-- The engine that is asked. -/
def Call.engine : Call ι τ → ι
  | .build engine _ => engine
  | .schedule engine _ _ => engine
  | .modulate engine _ _ => engine

/-- The nodes that an engine counts. -/
def counted (choir : Choir ι τ) (i : ι) : List NodeKey :=
  (choir.engines i).oscillator.nodes

variable [DecidableEq ι]

/-- Put in what became of one engine and of the graph. -/
def put (choir : Choir ι τ) (i : ι) (made : Engine × Graph τ) : Choir ι τ :=
  ⟨Function.update choir.engines i made.1, made.2⟩

/-- Remove the voices of one engine. -/
def free (choir : Choir ι τ) (i : ι) : Choir ι τ :=
  choir.put i ((choir.engines i).free choir.graph)

section Call

variable [TimeAxis τ] [Fourier]

/-- Ask something of an engine. A voice that cannot be built leaves the choir as it is. -/
def call (choir : Choir ι τ) : Call ι τ → Choir ι τ
  | .build i frequency =>
    match (choir.engines i).build choir.graph frequency with
    | .ok (_, made) => choir.put i made
    | .error _ => choir
  | .schedule i note position =>
    match (choir.engines i).schedule choir.graph note position with
    | .ok (_, made) => choir.put i made
    | .error _ => choir
  | .modulate i signals weights =>
    choir.put i ((choir.engines i).modulate choir.graph signals weights)

/-- The nodes that come while calls are made of one engine. -/
def builtBy (choir : Choir ι τ) (i : ι) : List (Call ι τ) → List NodeKey
  | [] => []
  | call :: rest =>
    (if i = call.engine then choir.graph.keysSince (choir.call call).graph else []) ++
      (choir.call call).builtBy i rest

/-- A call is made of one engine, and what comes is counted by that engine. -/
theorem call_gains (choir : Choir ι τ) (call : Call ι τ) :
    ∃ made, choir.call call = choir.put call.engine made ∧
      (choir.engines call.engine).Gains made.1 choir.graph made.2 := by
  have unchanged (i : ι) : choir = choir.put i (choir.engines i, choir.graph) := by
    rw [put, Function.update_eq_self]
  cases call with
  | build i frequency =>
    simp only [Choir.call]
    split
    · rename_i _ made built
      exact ⟨made, rfl, (Engine.gains_build built).1⟩
    · exact ⟨_, unchanged i, .refl ..⟩
  | schedule i note position =>
    simp only [Choir.call]
    split
    · rename_i _ made scheduled
      exact ⟨made, rfl, Engine.gains_schedule scheduled⟩
    · exact ⟨_, unchanged i, .refl ..⟩
  | modulate i signals weights => exact ⟨_, rfl, Engine.gains_modulate ..⟩

theorem changedFrom_call (choir : Choir ι τ) (call : Call ι τ) :
    choir.graph.ChangedFrom choir.graph.nodes.size (choir.call call).graph := by
  obtain ⟨made, same, gains⟩ := choir.call_gains call
  rw [same]
  exact gains.changed

theorem counted_call (choir : Choir ι τ) (call : Call ι τ) (i : ι) :
    ((choir.call call).counted i).Perm (choir.counted i ++
      if i = call.engine then choir.graph.keysSince (choir.call call).graph else []) := by
  obtain ⟨made, same, gains⟩ := choir.call_gains call
  rw [same]
  split
  · rename_i asked
    subst asked
    simpa [counted, put] using gains.nodes
  · rename_i spared
    simp [counted, put, Function.update_of_ne spared]

theorem changedFrom_foldl (choir : Choir ι τ) (calls : List (Call ι τ)) :
    choir.graph.ChangedFrom choir.graph.nodes.size (calls.foldl call choir).graph := by
  induction calls generalizing choir with
  | nil => exact .refl ..
  | cons call rest ih =>
    have first := choir.changedFrom_call call
    exact first.trans ((ih (choir.call call)).lower first.size)

/-- An engine counts just the nodes it built, besides those it counted before. -/
theorem counted_foldl (choir : Choir ι τ) (calls : List (Call ι τ)) (i : ι) :
    ((calls.foldl call choir).counted i).Perm (choir.counted i ++ choir.builtBy i calls) := by
  induction calls generalizing choir with
  | nil => simp [builtBy]
  | cons call rest ih =>
    rw [builtBy, ← List.append_assoc]
    exact (ih (choir.call call)).trans ((choir.counted_call call i).append_right _)

theorem le_of_mem_builtBy {choir : Choir ι τ} {calls : List (Call ι τ)} {i : ι} {key : NodeKey}
    (mem : key ∈ choir.builtBy i calls) : choir.graph.nodes.size ≤ key := by
  induction calls generalizing choir with
  | nil => cases mem
  | cons call rest ih =>
    have grown := (choir.changedFrom_call call).size
    rcases List.mem_append.mp mem with mem | mem
    · split at mem
      · exact ((Graph.mem_keysSince grown).mp mem).1
      · cases mem
    · exact Nat.le_trans grown (ih mem)

/-- Every node that came was built by one of the engines. -/
theorem exists_builtBy {choir : Choir ι τ} {calls : List (Call ι τ)} {key : NodeKey}
    (new : choir.graph.nodes.size ≤ key)
    (issued : key < (calls.foldl call choir).graph.nodes.size) :
    ∃ call ∈ calls, key ∈ choir.builtBy call.engine calls := by
  induction calls generalizing choir with
  | nil => exact absurd issued (Nat.not_lt.mpr new)
  | cons call rest ih =>
    by_cases now : key < (choir.call call).graph.nodes.size
    · have grown := (choir.changedFrom_call call).size
      refine ⟨call, List.mem_cons_self, List.mem_append_left _ ?_⟩
      rw [if_pos rfl, Graph.mem_keysSince grown]
      exact ⟨new, now⟩
    · obtain ⟨later, mem, built⟩ := ih (Nat.not_lt.mp now) issued
      exact ⟨later, List.mem_cons_of_mem _ mem, List.mem_append_right _ built⟩

end Call

theorem mem_counted_free {choir : Choir ι τ} {i j : ι} {key : NodeKey} :
    key ∈ (choir.free i).counted j ↔ j ≠ i ∧ key ∈ choir.counted j := by
  by_cases same : j = i
  · subst same
    simp [counted, free, put, Engine.oscillator_free]
  · simp [counted, free, put, same]

/-- To free some engines takes out what they count and nothing else. -/
theorem foldl_free (choir : Choir ι τ) (well : choir.graph.WellFormed)
    (inner : ∀ i, Graph.destination ∉ choir.counted i) (freed : List ι) :
    (∀ i, (freed.foldl free choir).engines i =
      if i ∈ freed then ((choir.engines i).free choir.graph).1 else choir.engines i) ∧
    (∀ key, (freed.foldl free choir).graph.node? key =
      if ∃ i ∈ freed, key ∈ choir.counted i then none else choir.graph.node? key) ∧
    (freed.foldl free choir).graph.connections = choir.graph.connections.filter fun c =>
      ∀ i ∈ freed, c.source ∉ choir.counted i ∧ c.target ∉ choir.counted i := by
  induction freed generalizing choir with
  | nil => simp
  | cons first rest ih =>
    obtain ⟨after, run, well', -, -, cut, left⟩ :=
      choir.graph.foldl_remove well (choir.counted first) (inner first)
    have graph : (choir.free first).graph = after := (Engine.snd_free ..).trans run
    obtain ⟨engines, nodes, connections⟩ := ih (choir.free first) (graph ▸ well')
      fun i mem => inner i (mem_counted_free.mp mem).2
    have others {key : NodeKey} (spared : key ∉ choir.counted first) (i : ι) :
        key ∈ (choir.free first).counted i ↔ key ∈ choir.counted i :=
      mem_counted_free.trans (and_iff_right_of_imp fun mem same => spared (same ▸ mem))
    refine ⟨fun i => ?_, fun key => ?_, ?_⟩
    · rw [List.foldl_cons, engines]
      by_cases same : i = first
      · subst same
        simp [free, put, Engine.free_free]
      · simp [free, put, same, Engine.fst_free_congr _ _ choir.graph]
    · rw [List.foldl_cons, nodes, graph, left]
      by_cases here : key ∈ choir.counted first
      · simp [here]
      · simp [here, others here]
    · rw [List.foldl_cons, connections, graph, cut, List.filter_filter]
      refine List.filter_congr fun c _ => ?_
      rw [Bool.eq_iff_iff, Bool.and_eq_true, and_comm]
      simp only [decide_eq_true_eq, List.forall_mem_cons]
      exact and_congr_right fun ⟨source, target⟩ =>
        forall₂_congr fun i _ => by rw [others source, others target]

/-! ### What is left when voices are given up -/

variable [TimeAxis τ]

/-- Engines without voices are asked to build and to schedule, in any order. Each counts just the
nodes it built. To free some of them takes out the nodes these built, with the connections that
touch them, and nothing else. An engine that was freed counts nothing, and to free it again changes
nothing. Where all that were asked are freed, in whatever order, the graph has the nodes and the
connections that it had before. -/
theorem free_restores [Fourier] {graph : Graph τ} (reachable : graph.Reachable)
    {engines : ι → Engine} (idle : ∀ i, (engines i).oscillator.nodes = [])
    (calls : List (Call ι τ)) (freed : List ι) :
    let start : Choir ι τ := ⟨engines, graph⟩
    let sung := calls.foldl call start
    let after := freed.foldl free sung
    (∀ i, (sung.counted i).Perm (start.builtBy i calls)) ∧
    (∀ key, after.graph.node? key =
      if ∃ i ∈ freed, key ∈ start.builtBy i calls then none else sung.graph.node? key) ∧
    (after.graph.connections = sung.graph.connections.filter fun c =>
      ∀ i ∈ freed, c.source ∉ start.builtBy i calls ∧ c.target ∉ start.builtBy i calls) ∧
    (∀ i ∉ freed, after.engines i = sung.engines i) ∧
    (∀ i ∈ freed, (after.engines i).oscillator.nodes = [] ∧
      (after.engines i).oscillator.generators = [] ∧ after.free i = after) ∧
    ((∀ call ∈ calls, call.engine ∈ freed) →
      (∀ key, after.graph.node? key = graph.node? key) ∧
        after.graph.connections = graph.connections) := by
  intro start sung after
  have well : graph.WellFormed := reachable.wellFormed
  have changed := start.changedFrom_foldl calls
  have built (i : ι) : (sung.counted i).Perm (start.builtBy i calls) := by
    have none_before : start.counted i = [] := idle i
    simpa only [none_before, List.nil_append] using start.counted_foldl calls i
  -- the destination was there before, so that no engine built it
  have inner (i : ι) : Graph.destination ∉ sung.counted i := by
    obtain ⟨_, lives, -⟩ := Option.map_eq_some_iff.mp ((well.destined _).mpr rfl)
    intro mem
    have le : graph.nodes.size ≤ Graph.destination := le_of_mem_builtBy ((built i).mem_iff.mp mem)
    exact Nat.not_le.mpr (Graph.lt_size_of_node? lives) le
  obtain ⟨engines', nodes, connections⟩ := sung.foldl_free (changed.wellFormed well) inner freed
  simp only [(built _).mem_iff] at nodes connections
  refine ⟨built, nodes, connections, fun i spared => ?_, fun i asked => ?_, fun all => ?_⟩
  · rw [engines', if_neg spared]
  · have gone : after.engines i = ((sung.engines i).free sung.graph).1 := by
      rw [engines', if_pos asked]
    refine ⟨by rw [gone, Engine.oscillator_free], by rw [gone, Engine.oscillator_free], ?_⟩
    rw [free, gone, Engine.free_free, ← gone, put, Function.update_eq_self]
  · obtain ⟨nodes', connections'⟩ := changed.undone well
      (fun key => ∃ i ∈ freed, key ∈ start.builtBy i calls)
      (fun key ⟨_, _, mem⟩ => le_of_mem_builtBy mem) fun key le issued => by
        obtain ⟨call, mem, here⟩ := exists_builtBy le issued
        exact ⟨call.engine, all call mem, here⟩
    refine ⟨fun key => (nodes key).trans (nodes' key), ?_⟩
    rw [connections, ← connections']
    refine List.filter_congr fun c _ => ?_
    simp [forall_and]

/-- A plain oscillator without a frequency control sings with a ring of three modulators, one of
which has no weight. -/
theorem free_restores_duet :
    let graph : Graph Float := [.addGain 1.0, .addConstant 0.0].foldl Graph.perform (.atRate 8.0)
    let timbre := Partials.ofList [(2.0, 1.0)]
    let engines : Bool → Engine
      | false => .plain (.around timbre 1 9)
      | true => .modulated ⟨.around timbre 1 2, [timbre, timbre, timbre], [0.5, 0.0, 2.0], []⟩
    let start : Choir Bool Float := ⟨engines, graph⟩
    let calls : List (Call Bool Float) :=
      [.build false 440.0, .schedule true ⟨220.0, 0.0, 1.0⟩ 0.5, .build false 330.0]
    let sung := calls.foldl call start
    let after := [true, false].foldl free sung
    graph.Reachable ∧ (∀ i, (engines i).oscillator.nodes = []) ∧
      start.builtBy false calls = [3, 11] ∧
      start.builtBy true calls = [4, 5, 6, 7, 8, 9, 10] ∧
      sung.graph.connections ≠ graph.connections ∧
      (∀ key, after.graph.node? key = graph.node? key) ∧
      after.graph.connections = graph.connections := by
  intro graph timbre engines start calls sung after
  have reachable : graph.Reachable := .run (.create _) _
  have idle (i : Bool) : (engines i).oscillator.nodes = [] := by cases i <;> rfl
  have ⟨_, _, _, _, _, restored⟩ := free_restores reachable idle calls [true, false]
  exact ⟨reachable, idle, by decide +kernel, by decide +kernel, by decide +kernel,
    restored (by simp)⟩

end Choir

end Patchbay
