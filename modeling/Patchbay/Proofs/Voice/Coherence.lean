import Patchbay.Proofs.Graph.Growth
import Patchbay.Proofs.Voice.Recall
import Patchbay.Proofs.Wave.Timbre

/-!
# Waves that are kept stay true

A ring keeps the waves of its timbres and asks for them again by comparing timbres. Whatever is done
with it, at whatever graphs, a wave that it kept is that of a timbre that counts as equal. So every
wave that it gives out, by itself or to a generator, is the one that would be made anew, where no
two partials of the timbre share a bin.
-/
namespace Patchbay

variable {τ : Type}

/-! ### Memos -/

namespace WaveMemo

variable [Fourier]

/-- A memo keeps the wave of its partials at its rate. -/
structure Faithful (memo : WaveMemo) : Prop where
  keyed : memo.partials.Keyed
  made : memo.partials.waveAt memo.rate = .ok memo.shared.wave

variable {memo : Option WaveMemo} {graph after : Graph τ} {partials : Partials} {made : WaveMemo}

/-- A kept wave that is asked for is the one that would be made anew. -/
theorem Faithful.waveAt_eq [LawfulFourier] {kept : WaveMemo} (faithful : kept.Faithful)
    (keyed : partials.Keyed) {rate : Float32} (resolved : partials.Resolved rate)
    (fits : (kept.rate == rate && kept.partials == partials) = true) :
    partials.waveAt rate = .ok kept.shared.wave := by
  obtain ⟨same_rate, same⟩ := Bool.and_eq_true_iff.mp fits
  rw [← faithful.keyed.waveAt_eq keyed same resolved, ← Partials.waveAt_of_beq same_rate,
    faithful.made]

/-- The wave that is given out is the one that would be made anew. -/
theorem wave_eq [LawfulFourier] (faithful : ∀ kept ∈ memo, kept.Faithful) (keyed : partials.Keyed)
    (resolved : partials.Resolved graph.rate) :
    (WaveMemo.wave memo graph partials).map (·.1.shared.wave) = partials.waveAt graph.rate := by
  unfold WaveMemo.wave
  split
  · rename_i found filtered
    obtain ⟨mem, fits⟩ := Option.filter_eq_some_iff.mp filtered
    rw [(faithful found mem).waveAt_eq keyed resolved fits]
    rfl
  · by_cases large : Partials.maxBins < binCount graph.rate
    · simp only [Partials.waveAt, Partials.place_eq_error large, bind, Except.bind]
      rfl
    · obtain ⟨real, real_placed⟩ := Partials.place_eq_ok (Nat.le_of_not_lt large) Partials.empty
      obtain ⟨imag, imag_placed⟩ := Partials.place_eq_ok (Nat.le_of_not_lt large) partials
      simp only [Partials.waveAt, real_placed, imag_placed, bind, Except.bind]
      rfl

/-- What is kept afterwards is faithful, and only a report shows. -/
theorem faithful_wave (faithful : ∀ kept ∈ memo, kept.Faithful) (keyed : partials.Keyed)
    (given : WaveMemo.wave memo graph partials = .ok (made, after)) :
    made.Faithful ∧ graph.Reported after := by
  unfold WaveMemo.wave at given
  split at given
  · rename_i filtered
    cases given
    exact ⟨faithful made (Option.filter_eq_some_iff.mp filtered).1, .refl graph⟩
  · simp only [Fault.bind_ok_iff] at given
    obtain ⟨real, real_placed, imag, imag_placed, given⟩ := given
    have fresh : partials.waveAt graph.rate =
        .ok (Wave.ofHarmonics Fourier.inverse real.bins imag.bins) := by
      simp only [Partials.waveAt, real_placed, imag_placed, bind, Except.bind]
    obtain ⟨waves, journal, same⟩ := graph.reported_logAll (imag.events (τ := τ) graph.rate)
    rw [same] at given
    cases given
    exact ⟨⟨keyed, fresh⟩, _, _, rfl⟩

end WaveMemo

/-! ### Generators that were just made -/

namespace Graph

/-- The wave that a generator plays. -/
def wave? (graph : Graph τ) (key : NodeKey) : Option (Wave Float32) :=
  (graph.generator? key).map (·.player.wave)

/-- A generator plays the wave that would be made of a timbre now, if no two partials of the timbre
share a bin. -/
def PlaysAnew [Fourier] (graph : Graph τ) (timbre : Partials) (key : NodeKey) : Prop :=
  timbre.Resolved graph.rate →
    ∃ wave, timbre.waveAt graph.rate = .ok wave ∧ graph.wave? key = some wave

/-- Nodes were added and the others left alone. -/
structure Extends (graph after : Graph τ) : Prop where
  size : graph.nodes.size ≤ after.nodes.size
  old : ∀ key < graph.nodes.size, after.node? key = graph.node? key
  rate : after.rate = graph.rate

variable {graph middle after : Graph τ}

theorem Extends.refl (graph : Graph τ) : graph.Extends graph :=
  ⟨Nat.le_refl _, fun _ _ => rfl, rfl⟩

theorem Extends.trans (first : graph.Extends middle) (second : middle.Extends after) :
    graph.Extends after where
  size := first.size.trans second.size
  old := fun key lt => (second.old key (lt.trans_le first.size)).trans (first.old key lt)
  rate := second.rate.trans first.rate

theorem extends_add (graph : Graph τ) (node : Node τ) : graph.Extends (graph.add node).2 where
  size := by simp
  old := fun key lt => by
    have apart : key ≠ graph.nodes.size := Nat.ne_of_lt lt
    rw [node?_add, if_neg apart]
  rate := by simp [rate]

theorem extends_connect (graph : Graph τ) (source target : NodeKey) (inlet : Inlet) :
    graph.Extends (graph.connect source target inlet).1 where
  size := by simp
  old := fun key _ => node?_connect ..
  rate := by simp [rate]

theorem Reported.extends (reported : graph.Reported after) : graph.Extends after := by
  obtain ⟨_, _, rfl⟩ := reported
  exact ⟨Nat.le_refl _, fun _ _ => rfl, rfl⟩

theorem Extends.wave? (h : graph.Extends after) {key : NodeKey} {wave : Wave Float32}
    (plays : graph.wave? key = some wave) : after.wave? key = some wave := by
  obtain ⟨g, found, same⟩ := Option.map_eq_some_iff.mp plays
  obtain ⟨node, lives, -⟩ := Option.bind_eq_some_iff.mp found
  rw [Graph.wave?, generator?, h.old key (lt_size_of_node? lives)]
  exact plays

theorem Extends.playsAnew [Fourier] (h : graph.Extends after) {timbre : Partials} {key : NodeKey}
    (plays : graph.PlaysAnew timbre key) : after.PlaysAnew timbre key := by
  intro resolved
  rw [h.rate] at resolved ⊢
  obtain ⟨wave, made, sounds⟩ := plays resolved
  exact ⟨wave, made, h.wave? sounds⟩

/-- To arm a generator leaves the waves that are played. -/
theorem wave?_modifyGenerator (graph : Graph τ) (key : NodeKey) {f : Generator τ → Generator τ}
    (kept : ∀ g, (f g).player = g.player) (other : NodeKey) :
    (graph.modifyGenerator key f).1.wave? other = graph.wave? other := by
  simp only [wave?, generator?, node?_modifyGenerator]
  split
  · rename_i here
    subst here
    cases graph.node? other with
    | none => rfl
    | some node => cases node <;> simp [Node.mapGenerator, Node.generator?, kept]
  · rfl

theorem wave?_armStart (graph : Graph τ) (key : NodeKey) (start : τ) (other : NodeKey) :
    (graph.armStart key start).1.wave? other = graph.wave? other :=
  graph.wave?_modifyGenerator key (f := fun g => { g with starts := some start })
    (fun _ => rfl) other

theorem wave?_armStop (graph : Graph τ) (key : NodeKey) (stop : τ) (other : NodeKey) :
    (graph.armStop key stop).1.wave? other = graph.wave? other :=
  graph.wave?_modifyGenerator key (f := fun g => { g with stops := some stop })
    (fun _ => rfl) other

theorem PlaysAnew.congr [Fourier] {timbre : Partials} {key : NodeKey}
    (plays : graph.PlaysAnew timbre key)
    (waves : after.wave? key = graph.wave? key) (rate : after.rate = graph.rate) :
    after.PlaysAnew timbre key := by
  unfold PlaysAnew
  rwa [waves, rate]

end Graph

/-- So does to arm a voice. -/
theorem Voice.arm_keeps_waves [TimeAxis τ] (voice : Voice) (graph : Graph τ) (note : Note τ)
    (position : τ) : (∀ key, (voice.arm graph note position).2.wave? key = graph.wave? key) ∧
      (voice.arm graph note position).2.rate = graph.rate := by
  refine List.foldlRecOn (motive := fun after : Graph τ =>
      (∀ key, after.wave? key = graph.wave? key) ∧ after.rate = graph.rate)
    voice.generators _ ⟨fun _ => rfl, rfl⟩ ?_
  rintro armed ⟨waves, rate⟩ first -
  refine ⟨fun key => ?_, Eq.trans ?_ rate⟩
  · rw [Graph.wave?_armStop, Graph.wave?_armStart, waves]
  · simp [Graph.rate, Graph.armStop, Graph.armStart]

/-! ### Voices -/

namespace Oscillator

variable [Fourier] {oscillator next : Oscillator} {graph after : Graph τ} {frequency : Float32}
  {key : NodeKey} {voice : Voice}

/-- The wave of the partials is the one that would be made anew. -/
theorem wave_eq [LawfulFourier] (faithful : ∀ kept ∈ oscillator.memo, kept.Faithful)
    (keyed : oscillator.partials.Keyed) (resolved : oscillator.partials.Resolved graph.rate) :
    (oscillator.wave graph).map (·.1.wave) = oscillator.partials.waveAt graph.rate := by
  rw [← WaveMemo.wave_eq faithful keyed resolved, Oscillator.wave]
  cases WaveMemo.wave oscillator.memo graph oscillator.partials <;> rfl

/-- So is the wave of a generator that is spawned. -/
theorem spawn_anew [LawfulFourier] (faithful : ∀ kept ∈ oscillator.memo, kept.Faithful)
    (keyed : oscillator.partials.Keyed)
    (spawned : oscillator.spawn graph frequency = .ok (key, next, after)) :
    graph.Extends after ∧ after.PlaysAnew oscillator.partials key ∧
      ∃ made : WaveMemo, made.Faithful ∧ next = { oscillator with
        memo := some made
        nodes := oscillator.nodes ++ [key]
        generators := oscillator.generators ++ [key] } := by
  simp only [spawn, Oscillator.wave, Fault.bind_ok_iff] at spawned
  obtain ⟨_, ⟨⟨made, reported⟩, given, same⟩, spawned⟩ := spawned
  cases same
  obtain ⟨is_faithful, quiet⟩ := WaveMemo.faithful_wave faithful keyed given
  have turn : (Node.generator (Generator.playing made.shared : Generator τ)).setValue? .frequency
      frequency = some (.generator { Generator.playing made.shared with frequency }) := rfl
  have turned := reported.setValue_add turn
  simp only [Graph.addGenerator, Graph.add_fst] at spawned
  rw [turned] at spawned
  cases spawned
  have added := reported.extends_add
    (.generator { Generator.playing made.shared with frequency } : Node τ)
  have connected := (reported.add (.generator { Generator.playing made.shared with frequency })).2
    |>.extends_connect oscillator.control reported.nodes.size (.knob .frequency)
  have whole := (quiet.extends.trans added).trans connected
  refine ⟨whole, fun resolved => ?_, made, is_faithful, rfl⟩
  rw [whole.rate] at resolved ⊢
  refine ⟨made.shared.wave, ?_, connected.wave? ?_⟩
  · rw [← WaveMemo.wave_eq faithful keyed resolved, given]
    rfl
  · simp [Graph.wave?, Graph.generator?, Graph.node?_add, Node.generator?, Generator.playing,
      Player.start]

theorem build_anew [LawfulFourier] (faithful : ∀ kept ∈ oscillator.memo, kept.Faithful)
    (keyed : oscillator.partials.Keyed)
    (built : oscillator.build graph frequency = .ok (voice, next, after)) :
    graph.Extends after ∧ voice.generators = [voice.carrier] ∧
      after.PlaysAnew oscillator.partials voice.carrier ∧
      ∃ made : WaveMemo, made.Faithful ∧ next = { oscillator with
        memo := some made
        nodes := oscillator.nodes ++ [voice.carrier]
        generators := oscillator.generators ++ [voice.carrier] } := by
  simp only [build, Fault.bind_ok_iff] at built
  obtain ⟨⟨carrier, spawned_next, middle⟩, spawned, built⟩ := built
  cases built
  obtain ⟨extended, plays, kept⟩ := spawn_anew faithful keyed spawned
  have connected := middle.extends_connect carrier spawned_next.output .audio
  exact ⟨extended.trans connected, rfl, connected.playsAnew plays, kept⟩

/-- A change that leaves the partials and the memo. -/
def LeavesWaves (f : Oscillator → Graph τ → Oscillator × Graph τ) : Prop :=
  ∀ oscillator graph, (f oscillator graph).1.partials = oscillator.partials ∧
    (f oscillator graph).1.memo = oscillator.memo

end Oscillator

namespace RingOscillator

/-- Every timbre of a ring has its indices once, and every memo is faithful. -/
structure Faithful [Fourier] (ring : RingOscillator) : Prop where
  timbre : ring.oscillator.partials.Keyed
  signals : ∀ signal ∈ ring.signals, signal.Keyed
  kept : ∀ memo, ring.Keeps memo → memo.Faithful

/-- The timbres of the generators of a voice, the carrier first. -/
def timbres (ring : RingOscillator) : List Partials :=
  ring.oscillator.partials :: ring.branches.map (·.signal)

theorem signal_of_mem_branches {ring : RingOscillator} {branch : Branch}
    (mem : branch ∈ ring.branches) : branch.signal ∈ ring.signals := by
  obtain ⟨⟨⟨signal, weight⟩, index⟩, listed, rfl⟩ := List.mem_map.mp (List.mem_filter.mp mem).1
  exact (List.of_mem_zip (List.fst_mem_of_mem_zipIdx listed)).1

variable [Fourier] {ring next : RingOscillator} {graph after : Graph τ} {frequency : Float32}
  {voice : Voice}

theorem Faithful.of_bare (faithful : ring.Faithful) (same : next.bare = ring.bare)
    (kept : ∀ memo, next.Keeps memo → memo.Faithful) : next.Faithful where
  timbre := by
    have partials : next.oscillator.partials = ring.oscillator.partials :=
      congrArg (·.oscillator.partials) same
    exact partials ▸ faithful.timbre
  signals := by
    have signals : next.signals = ring.signals := congrArg (·.signals) same
    exact signals ▸ faithful.signals
  kept := kept

/-- The memos that a ring reserves are still empty. -/
theorem Faithful.reserve (faithful : ring.Faithful) : ring.reserve.Faithful := by
  refine faithful.of_bare rfl fun memo keeps => ?_
  rcases keeps with mem | mem
  · exact faithful.kept memo (.inl mem)
  · rcases List.mem_append.mp mem with mem | blank
    · exact faithful.kept memo (.inr mem)
    · cases List.eq_of_mem_replicate blank

theorem Faithful.at_index (faithful : ring.Faithful) (index : Nat) :
    ∀ memo ∈ ring.memos[index]?.join, memo.Faithful := fun memo mem =>
  faithful.kept memo (.inr (List.mem_of_getElem? (Option.join_eq_some_iff.mp mem)))

/-- A branch adds a generator with the wave that would be made anew of its signal. -/
theorem Cascade.add_anew [LawfulFourier] {cascade last : Cascade τ} {branch : Branch}
    (faithful : cascade.ring.Faithful) (keyed : branch.signal.Keyed)
    (added : Cascade.add frequency cascade branch = .ok last) :
    cascade.graph.Extends last.graph ∧ last.ring.Faithful ∧ last.ring.bare = cascade.ring.bare ∧
      ∃ key, last.graph.PlaysAnew branch.signal key ∧
        last.generators = cascade.generators ++ [key] ∧
        last.ring.oscillator.generators = cascade.ring.oscillator.generators ++ [key] := by
  simp only [Cascade.add, Fault.bind_ok_iff] at added
  obtain ⟨⟨voice, modulator, modulated⟩, built, added⟩ := added
  obtain ⟨extended, single, plays, made, is_faithful, rfl⟩ :=
    Oscillator.build_anew (faithful.at_index branch.index) keyed built
  cases added
  have weighed := cascade.graph.extends_add (.gain branch.weight)
  have staged := modulated.extends_add (.gain 1.0)
  have driven := (modulated.add (.gain 1.0)).2.extends_connect
    (cascade.graph.addGain branch.weight).1 modulated.nodes.size (.knob .gain)
  have fed := ((modulated.add (.gain 1.0)).2.connect (cascade.graph.addGain branch.weight).1
    modulated.nodes.size (.knob .gain)).1.extends_connect cascade.chain modulated.nodes.size .audio
  have later := (staged.trans driven).trans fed
  refine ⟨(weighed.trans extended).trans later, faithful.of_bare rfl fun memo keeps => ?_, rfl,
    voice.carrier, later.playsAnew plays, by rw [single], ?_⟩
  · rcases keeps with mem | mem
    · exact faithful.kept memo (.inl mem)
    · rcases List.mem_or_eq_of_mem_set mem with mem | same
      · exact faithful.kept memo (.inr mem)
      · exact Option.some.inj same ▸ is_faithful
  · simp [Oscillator.absorb, Oscillator.track, Oscillator.around]

/-- The branches add their generators one after another. -/
theorem Cascade.addAll_anew [LawfulFourier] {cascade last : Cascade τ} {branches : List Branch}
    (faithful : cascade.ring.Faithful) (keyed : ∀ branch ∈ branches, branch.signal.Keyed)
    (added : branches.foldlM (Cascade.add frequency) cascade = .ok last) :
    cascade.graph.Extends last.graph ∧ last.ring.Faithful ∧ last.ring.bare = cascade.ring.bare ∧
      ∃ keys, List.Forall₂ last.graph.PlaysAnew (branches.map (·.signal)) keys ∧
        last.generators = cascade.generators ++ keys ∧
        last.ring.oscillator.generators = cascade.ring.oscillator.generators ++ keys := by
  induction branches generalizing cascade with
  | nil =>
    cases added
    exact ⟨.refl _, faithful, rfl, [], .nil, by simp, by simp⟩
  | cons branch rest ih =>
    rw [List.foldlM_cons, Fault.bind_ok_iff] at added
    obtain ⟨next, first, others⟩ := added
    obtain ⟨extended, faithful, bare, key, plays, generators, counted⟩ :=
      Cascade.add_anew faithful (keyed branch List.mem_cons_self) first
    obtain ⟨extended', faithful, bare', keys, play, generators', counted'⟩ :=
      ih faithful (fun other mem => keyed other (List.mem_cons_of_mem _ mem)) others
    refine ⟨extended.trans extended', faithful, bare'.trans bare, key :: keys,
      .cons (extended'.playsAnew plays) play, ?_, ?_⟩
    · rw [generators', generators, List.append_assoc]
      rfl
    · rw [counted', counted, List.append_assoc]
      rfl

/-- The generators of a voice play the waves that would be made anew of the timbres of the ring. -/
theorem build_anew [LawfulFourier] (faithful : ring.Faithful)
    (built : ring.build graph frequency = .ok (voice, next, after)) :
    next.Faithful ∧ List.Forall₂ after.PlaysAnew ring.timbres voice.generators ∧
      next.oscillator.generators = ring.oscillator.generators ++ voice.generators := by
  simp only [build, Fault.bind_ok_iff] at built
  obtain ⟨⟨carrier, oscillator, spawned_graph⟩, spawned, last, added, built⟩ := built
  obtain ⟨-, plays, made, is_faithful, rfl⟩ := Oscillator.spawn_anew
    (fun memo mem => faithful.kept memo (.inl mem)) faithful.timbre spawned
  have begun : RingOscillator.Faithful { ring with oscillator := { ring.oscillator with
      memo := some made
      nodes := ring.oscillator.nodes ++ [carrier]
      generators := ring.oscillator.generators ++ [carrier] } } := by
    refine faithful.of_bare rfl fun memo keeps => ?_
    rcases keeps with mem | mem
    · exact Option.some.inj mem ▸ is_faithful
    · exact faithful.kept memo (.inr mem)
  obtain ⟨extended, is_faithful, bare, keys, play, generators, counted⟩ :=
    Cascade.addAll_anew begun.reserve
      (fun branch mem => faithful.signals _ (signal_of_mem_branches mem)) added
  cases built
  have connected := last.graph.extends_connect last.chain last.ring.oscillator.output .audio
  refine ⟨is_faithful, ?_, ?_⟩
  · rw [generators]
    exact .cons (connected.playsAnew (extended.playsAnew plays))
      (play.imp fun _ _ plays => connected.playsAnew plays)
  · rw [counted, generators]
    simp [reserve]

/-- So do the generators of a note that is scheduled. -/
theorem schedule_anew [TimeAxis τ] [LawfulFourier] (faithful : ring.Faithful) {note : Note τ}
    {position : τ} {delays : Delays τ}
    (scheduled : ring.schedule graph note position = .ok (delays, next, after)) :
    next.Faithful ∧ ∃ keys, List.Forall₂ after.PlaysAnew ring.timbres keys ∧
      next.oscillator.generators = ring.oscillator.generators ++ keys := by
  simp only [schedule, Fault.bind_ok_iff] at scheduled
  obtain ⟨⟨voice, ring', built_graph⟩, built, scheduled⟩ := scheduled
  obtain ⟨is_faithful, plays, counted⟩ := build_anew faithful built
  obtain ⟨waves, rate⟩ := voice.arm_keeps_waves built_graph note position
  cases scheduled
  exact ⟨is_faithful, voice.generators, plays.imp fun _ key plays => plays.congr (waves key) rate,
    counted⟩

/-! ### What is done with a ring -/

/-- A timbre in which every index stands once. -/
abbrev Timbre : Type :=
  { partials : Partials // partials.Keyed }

/-- What can be done with a ring, each time at whatever graph. -/
inductive Act (τ : Type) where
  | assign (timbre : Timbre)
  | setPartial (index amplitude : Float32)
  | erasePartial (index : Float32)
  | modulate (graph : Graph τ) (signals : List Timbre) (weights : List Float32)
  | follow (graph : Graph τ)
  | setFrequency (graph : Graph τ) (frequency : Float32)
  | wave (graph : Graph τ)
  | build (graph : Graph τ) (frequency : Float32)
  | schedule (graph : Graph τ) (note : Note τ) (position : τ)
  | free (graph : Graph τ)

/-- A ring with other partials. -/
def withPartials (ring : RingOscillator) (partials : Partials) : RingOscillator :=
  { ring with oscillator := { ring.oscillator with partials } }

/-- A ring after something is done with it. A fault leaves it as it was. -/
def act [TimeAxis τ] (ring : RingOscillator) : Act τ → RingOscillator
  | .assign timbre => ring.withPartials timbre
  | .setPartial index amplitude =>
    ring.withPartials (ring.oscillator.partials.set index amplitude)
  | .erasePartial index => ring.withPartials (ring.oscillator.partials.erase index)
  | .modulate graph signals weights => (ring.modulate graph (signals.map (·.1)) weights).1
  | .follow graph => (ring.withOscillator graph Oscillator.follow).1
  | .setFrequency graph frequency =>
    (ring.withOscillator graph fun oscillator graph => oscillator.setFrequency graph frequency).1
  | .wave graph =>
    (ring.oscillator.wave graph).toOption.elim ring fun made =>
      { ring with oscillator := made.2.1 }
  | .build graph frequency => (ring.build graph frequency).toOption.elim ring (·.2.1)
  | .schedule graph note position =>
    (ring.schedule graph note position).toOption.elim ring (·.2.1)
  | .free graph => (ring.free graph).1

/-- A ring that was just made is faithful. -/
theorem faithful_around {partials : Partials} (keyed : partials.Keyed) (output control : NodeKey) :
    Faithful ⟨.around partials output control, [], [], []⟩ where
  timbre := keyed
  signals := fun _ mem => absurd mem List.not_mem_nil
  kept := fun _ keeps => keeps.elim (fun mem => nomatch mem) fun mem => absurd mem List.not_mem_nil

theorem Faithful.withPartials (faithful : ring.Faithful) {partials : Partials}
    (keyed : partials.Keyed) : (ring.withPartials partials).Faithful :=
  ⟨keyed, faithful.signals, faithful.kept⟩

/-- To turn an oscillator's knobs or to free its voices leaves its waves alone. -/
theorem Faithful.withOscillator (faithful : ring.Faithful)
    {f : Oscillator → Graph τ → Oscillator × Graph τ} (leaves : Oscillator.LeavesWaves f)
    (graph : Graph τ) : (ring.withOscillator graph f).1.Faithful where
  timbre := by
    show (f ring.oscillator graph).1.partials.Keyed
    exact (leaves ring.oscillator graph).1 ▸ faithful.timbre
  signals := faithful.signals
  kept := fun kept keeps => faithful.kept kept
    (keeps.imp_left fun mem => (leaves ring.oscillator graph).2.symm.trans mem)

/-- Whatever is done with a ring keeps it faithful. -/
theorem Faithful.act [TimeAxis τ] [LawfulFourier] (faithful : ring.Faithful) (act : Act τ) :
    (ring.act act).Faithful := by
  cases act with
  | assign timbre => exact faithful.withPartials timbre.2
  | setPartial index amplitude => exact faithful.withPartials (faithful.timbre.set index amplitude)
  | erasePartial index => exact faithful.withPartials (faithful.timbre.erase index)
  | modulate graph signals weights =>
    refine ⟨faithful.timbre, fun signal mem => ?_, faithful.kept⟩
    obtain ⟨timbre, -, rfl⟩ := List.mem_map.mp mem
    exact timbre.2
  | follow graph => exact faithful.withOscillator (fun _ _ => ⟨rfl, rfl⟩) graph
  | setFrequency graph frequency =>
    exact faithful.withOscillator (fun _ _ => ⟨rfl, rfl⟩) graph
  | wave graph =>
    simp only [RingOscillator.act]
    cases given : ring.oscillator.wave graph with
    | error fault => exact faithful
    | ok made =>
      simp only [Oscillator.wave, Fault.bind_ok_iff] at given
      obtain ⟨⟨memo, reported⟩, given, same⟩ := given
      cases same
      obtain ⟨is_faithful, -⟩ := WaveMemo.faithful_wave
        (fun kept mem => faithful.kept kept (.inl mem)) faithful.timbre given
      refine ⟨faithful.timbre, faithful.signals, fun kept keeps => ?_⟩
      rcases keeps with mem | mem
      · exact Option.some.inj mem ▸ is_faithful
      · exact faithful.kept kept (.inr mem)
  | build graph frequency =>
    simp only [RingOscillator.act]
    cases built : ring.build graph frequency with
    | error fault => exact faithful
    | ok made => exact (build_anew faithful built).1
  | schedule graph note position =>
    simp only [RingOscillator.act]
    cases scheduled : ring.schedule graph note position with
    | error fault => exact faithful
    | ok made => exact (schedule_anew faithful scheduled).1
  | free graph => exact faithful.withOscillator (fun _ _ => ⟨rfl, rfl⟩) graph

theorem Faithful.foldl [TimeAxis τ] [LawfulFourier] (faithful : ring.Faithful)
    (acts : List (Act τ)) : (acts.foldl RingOscillator.act ring).Faithful := by
  induction acts generalizing ring with
  | nil => exact faithful
  | cons first rest ih => exact ih (faithful.act first)

end RingOscillator

end Patchbay
