import Patchbay.Proofs.Graph.Permanence
import Patchbay.Proofs.Voice.Coherence
import Patchbay.Proofs.Voice.Restoration

/-!
# Waves that are shared

A ring keeps one wave for its carrier and one for each index of its signals. However signals and
weights change between voices, the generator at a seat of a voice plays the very wave that was given
to this seat the last time just if the timbres count as equal. No wave is lost, and none moves to
another index.
-/
namespace Patchbay

variable {τ : Type}

/-! ### Serial numbers -/

namespace Graph

variable {graph middle after : Graph τ}

/-- The wave that a generator plays, with its serial number. -/
def shared? (graph : Graph τ) (key : NodeKey) : Option SharedWave :=
  (graph.generator? key).map fun g => ⟨g.serial, g.player.wave⟩

theorem Extends.shared? (h : graph.Extends after) {key : NodeKey} {shared : SharedWave}
    (plays : graph.shared? key = some shared) : after.shared? key = some shared := by
  obtain ⟨g, found, same⟩ := Option.map_eq_some_iff.mp plays
  obtain ⟨node, lives, -⟩ := Option.bind_eq_some_iff.mp found
  rw [Graph.shared?, generator?, h.old key (lt_size_of_node? lives)]
  exact plays

theorem shared?_modifyGenerator (graph : Graph τ) (key : NodeKey) {f : Generator τ → Generator τ}
    (kept : ∀ g, (f g).serial = g.serial ∧ (f g).player = g.player) (other : NodeKey) :
    (graph.modifyGenerator key f).1.shared? other = graph.shared? other := by
  simp only [shared?, generator?, node?_modifyGenerator]
  split
  · rename_i here
    subst here
    cases graph.node? other with
    | none => rfl
    | some node => cases node <;> simp [Node.mapGenerator, Node.generator?, kept]
  · rfl

theorem shared?_armStart (graph : Graph τ) (key : NodeKey) (start : τ) (other : NodeKey) :
    (graph.armStart key start).1.shared? other = graph.shared? other :=
  graph.shared?_modifyGenerator key (f := fun g => { g with starts := some start })
    (fun _ => ⟨rfl, rfl⟩) other

theorem shared?_armStop (graph : Graph τ) (key : NodeKey) (stop : τ) (other : NodeKey) :
    (graph.armStop key stop).1.shared? other = graph.shared? other :=
  graph.shared?_modifyGenerator key (f := fun g => { g with stops := some stop })
    (fun _ => ⟨rfl, rfl⟩) other

end Graph

namespace WaveMemo

variable [Fourier] {memo : Option WaveMemo} {graph after : Graph τ} {partials : Partials}
  {made : WaveMemo}

/-- A wave that is asked for is the one that was kept, or it has the next serial number. -/
theorem wave_cases (given : WaveMemo.wave memo graph partials = .ok (made, after)) :
    (memo = some made ∧ (made.rate == graph.rate && made.partials == partials) = true ∧
      after = graph) ∨
    ((∀ kept ∈ memo, (kept.rate == graph.rate && kept.partials == partials) = false) ∧
      made.partials = partials ∧ made.rate = graph.rate ∧ made.shared.serial = graph.waves ∧
      after.rate = graph.rate ∧ after.waves = graph.waves + 1) := by
  unfold WaveMemo.wave at given
  split at given
  · rename_i filtered
    cases given
    obtain ⟨mem, fits⟩ := Option.filter_eq_some_iff.mp filtered
    exact .inl ⟨mem, fits, rfl⟩
  · rename_i filtered
    simp only [Fault.bind_ok_iff] at given
    obtain ⟨real, -, imag, -, given⟩ := given
    rw [Graph.logAll_eq] at given
    cases given
    refine .inr ⟨fun kept mem => ?_, rfl, rfl, rfl, rfl, rfl⟩
    simpa using Option.filter_eq_none_iff.mp filtered kept mem

end WaveMemo

/-! ### Waves that are given -/

/-- Where a timbre stands in a ring: as the carrier, or among the signals at an index. -/
inductive Seat where
  | carrier
  | branch (index : Nat)
  deriving Repr, DecidableEq

/-- What was given to a seat: the wave for its timbre. -/
structure Grant where
  seat : Seat
  timbre : Partials
  shared : SharedWave
  deriving Repr

namespace Grant

/-- What a seat was given last, where the latest of all grants comes first. -/
def last (grants : List Grant) (seat : Seat) : Option Grant :=
  grants.find? (·.seat == seat)

theorem last_cons_self (grant : Grant) (grants : List Grant) :
    last (grant :: grants) grant.seat = some grant := by
  simp [last]

theorem last_cons_of_ne {grant : Grant} {seat : Seat} (differs : seat ≠ grant.seat)
    (grants : List Grant) : last (grant :: grants) seat = last grants seat := by
  simp [last, differs.symm]

/-- The very wave of another grant is given again just if the timbres count as equal. -/
structure Follows (grant old : Grant) : Prop where
  serial : grant.shared.serial = old.shared.serial ↔ (grant.timbre == old.timbre) = true
  shared : grant.shared.serial = old.shared.serial → grant.shared = old.shared

/-- Every grant follows the last one that its seat was given before. -/
def Consistent (grants : List Grant) : Prop :=
  ∀ grant earlier, grant :: earlier <:+ grants →
    ∀ old, last earlier grant.seat = some old → grant.Follows old

theorem Consistent.cons {grants : List Grant} (consistent : Consistent grants) {grant : Grant}
    (follows : ∀ old, last grants grant.seat = some old → grant.Follows old) :
    Consistent (grant :: grants) := by
  intro other earlier later old found
  rcases List.suffix_cons_iff.mp later with same | before
  · cases same
    exact follows old found
  · exact consistent other earlier before old found

end Grant

namespace WaveMemo

variable [Fourier] {memo : Option WaveMemo} {graph after : Graph τ} {partials : Partials}
  {made : WaveMemo}

/-- A memo keeps the wave that was given last. It was made for a timbre that counts as equal. -/
structure Recalls (graph : Graph τ) (memo : Option WaveMemo) (last : Option Grant) : Prop where
  shared : memo.map (·.shared) = last.map (·.shared)
  made : ∀ kept ∈ memo, ∀ grant ∈ last, kept.Faithful ∧ grant.timbre.Keyed ∧
    kept.rate = graph.rate ∧ kept.shared.serial < graph.waves ∧
    (kept.partials = grant.timbre ∨ (kept.partials == grant.timbre) = true)

theorem Recalls.ages {last : Option Grant} (recalls : Recalls graph memo last)
    (ages : graph.Ages after) : Recalls after memo last where
  shared := recalls.shared
  made := by
    intro kept mem grant given
    obtain ⟨faithful, keyed, rate, serial, same⟩ := recalls.made kept mem grant given
    exact ⟨faithful, keyed, rate.trans ages.rate.symm, Nat.lt_of_lt_of_le serial ages.waves, same⟩

/-- A memo that is kept was given before. -/
theorem Recalls.faithful {last : Option Grant} (recalls : Recalls graph memo last) :
    ∀ kept ∈ memo, kept.Faithful ∧ kept.rate = graph.rate := by
  rintro kept ⟨⟩
  cases last with
  | none => cases recalls.shared
  | some grant =>
    obtain ⟨faithful, -, rate, -⟩ := recalls.made kept rfl grant rfl
    exact ⟨faithful, rate⟩

/-- A memo that is asked agrees just if the timbre counts as equal to the one before. -/
theorem Recalls.agrees_iff {kept : WaveMemo} {old : Grant}
    (recalls : Recalls graph (some kept) (some old)) (keyed : partials.Keyed) :
    (kept.partials == partials) = true ↔ (partials == old.timbre) = true := by
  obtain ⟨⟨kept_keyed, -⟩, old_keyed, -, -, same⟩ := recalls.made kept rfl old rfl
  rcases same with same | same
  · rw [same]
    exact ⟨old_keyed.beq_symm keyed, keyed.beq_symm old_keyed⟩
  · constructor
    · intro agrees
      exact keyed.beq_trans kept_keyed old_keyed (kept_keyed.beq_symm keyed agrees) same
    · intro equal
      exact kept_keyed.beq_trans old_keyed keyed same (keyed.beq_symm old_keyed equal)

/-- A memo that is asked for a wave keeps what it gives. At a rate that is a number the grant
follows the one before. -/
theorem Recalls.wave {last : Option Grant} (recalls : Recalls graph memo last)
    (keyed : partials.Keyed) (given : WaveMemo.wave memo graph partials = .ok (made, after))
    (seat : Seat) :
    graph.Ages after ∧ Recalls after (some made) (some ⟨seat, partials, made.shared⟩) ∧
      ((graph.rate == graph.rate) = true →
        ∀ old ∈ last, Grant.Follows ⟨seat, partials, made.shared⟩ old) := by
  have faithful : made.Faithful := (faithful_wave (fun kept mem => (recalls.faithful kept mem).1)
    keyed given).1
  rcases wave_cases given with ⟨rfl, fits, rfl⟩ | ⟨refused, same, rate, serial, rate', waves⟩
  · obtain ⟨-, agrees⟩ := Bool.and_eq_true_iff.mp fits
    cases last with
    | none => cases recalls.shared
    | some old =>
      have shared : made.shared = old.shared := Option.some.inj recalls.shared
      obtain ⟨-, -, rate, serial, -⟩ := recalls.made made rfl old rfl
      refine ⟨.refl after, ⟨rfl, ?_⟩, ?_⟩
      · rintro _ ⟨⟩ _ ⟨⟩
        exact ⟨faithful, keyed, rate, serial, .inr agrees⟩
      · rintro - _ ⟨⟩
        exact ⟨iff_of_true (congrArg _ shared) ((recalls.agrees_iff keyed).mp agrees),
          fun _ => shared⟩
  · refine ⟨⟨rate', waves ▸ Nat.le_succ _⟩, ⟨rfl, ?_⟩, ?_⟩
    · rintro _ ⟨⟩ _ ⟨⟩
      exact ⟨faithful, keyed, rate.trans rate'.symm, by omega, .inl same⟩
    · intro number old given_last
      cases memo with
      | none =>
        rw [given_last] at recalls
        cases recalls.shared
      | some kept =>
        rw [given_last] at recalls
        have shared : kept.shared = old.shared := Option.some.inj recalls.shared
        obtain ⟨-, -, kept_rate, kept_serial, -⟩ := recalls.made kept rfl old rfl
        have differs : made.shared.serial ≠ old.shared.serial := by
          rw [← shared]
          omega
        have unequal : ¬ (partials == old.timbre) = true := by
          rw [← recalls.agrees_iff keyed]
          simpa [kept_rate, number] using refused kept rfl
        exact ⟨iff_of_false differs unequal, fun equal => absurd equal differs⟩

end WaveMemo

/-! ### Voices -/

namespace Oscillator

variable [Fourier] {oscillator next : Oscillator} {graph after : Graph τ} {frequency : Float32}
  {key : NodeKey} {voice : Voice}

/-- A generator that is spawned plays the wave that the memo was asked for. -/
theorem spawn_shared (spawned : oscillator.spawn graph frequency = .ok (key, next, after)) :
    ∃ made told, WaveMemo.wave oscillator.memo graph oscillator.partials = .ok (made, told) ∧
      told.Ages after ∧ graph.Extends after ∧ after.shared? key = some made.shared ∧
      next = { oscillator with
        memo := some made
        nodes := oscillator.nodes ++ [key]
        generators := oscillator.generators ++ [key] } := by
  simp only [spawn, Oscillator.wave, Fault.bind_ok_iff] at spawned
  obtain ⟨_, ⟨⟨made, told⟩, given, same⟩, spawned⟩ := spawned
  cases same
  let generator : Node τ := .generator { Generator.playing made.shared with frequency }
  have turn : (Node.generator (Generator.playing made.shared : Generator τ)).setValue? .frequency
      frequency = some generator := rfl
  have turned := told.setValue_add turn
  simp only [Graph.addGenerator, Graph.add_fst] at spawned
  rw [turned] at spawned
  cases spawned
  have connected := (told.add generator).2.extends_connect oscillator.control told.nodes.size
    (.knob .frequency)
  have aged := (told.add generator).2.ages_connect oscillator.control told.nodes.size
    (.knob .frequency)
  refine ⟨made, told, given, ⟨aged.rate, aged.waves⟩,
    ((WaveMemo.reported_wave given).extends.trans (told.extends_add generator)).trans connected,
    connected.shared? ?_, rfl⟩
  simp [Graph.shared?, Graph.generator?, Graph.node?_add, generator, Node.generator?,
    Generator.playing, Player.start]

theorem build_shared (built : oscillator.build graph frequency = .ok (voice, next, after)) :
    ∃ made told, WaveMemo.wave oscillator.memo graph oscillator.partials = .ok (made, told) ∧
      told.Ages after ∧ graph.Extends after ∧ after.shared? voice.carrier = some made.shared ∧
      voice.generators = [voice.carrier] ∧ next = { oscillator with
        memo := some made
        nodes := oscillator.nodes ++ [voice.carrier]
        generators := oscillator.generators ++ [voice.carrier] } := by
  simp only [build, Fault.bind_ok_iff] at built
  obtain ⟨⟨carrier, spawned_next, middle⟩, spawned, built⟩ := built
  cases built
  obtain ⟨made, told, given, aged, extended, plays, same⟩ := spawn_shared spawned
  have connected := middle.extends_connect carrier spawned_next.output .audio
  exact ⟨made, told, given, aged.trans (middle.ages_connect ..), extended.trans connected,
    connected.shared? plays, rfl, same⟩

omit [Fourier] in
theorem ages_free (oscillator : Oscillator) (graph : Graph τ) :
    graph.Ages (oscillator.free graph).2 :=
  List.foldlRecOn (motive := graph.Ages) oscillator.nodes _ (.refl graph)
    fun middle aged key _ => aged.trans (middle.ages_remove key)

end Oscillator

/-- To arm a voice leaves the waves that are played, and makes none. -/
theorem Voice.arm_shared [TimeAxis τ] (voice : Voice) (graph : Graph τ) (note : Note τ)
    (position : τ) : (∀ key, (voice.arm graph note position).2.shared? key = graph.shared? key) ∧
      graph.Ages (voice.arm graph note position).2 := by
  have told (armed : Graph τ) (event : Event τ)
      (done : (∀ key, armed.shared? key = graph.shared? key) ∧ graph.Ages armed) :
      (∀ key, (armed.log event).shared? key = graph.shared? key) ∧ graph.Ages (armed.log event) :=
    ⟨done.1, done.2.rate, done.2.waves⟩
  refine told _ _ (List.foldlRecOn (motive := fun after : Graph τ =>
      (∀ key, after.shared? key = graph.shared? key) ∧ graph.Ages after)
    voice.generators _ ⟨fun _ => rfl, .refl graph⟩ ?_)
  rintro armed ⟨waves, aged⟩ first -
  refine ⟨fun key => ?_, (aged.trans (armed.ages_modifyGenerator first _)).trans
    (Graph.ages_modifyGenerator _ first _)⟩
  rw [Graph.shared?_armStop, Graph.shared?_armStart, waves]

namespace RingOscillator

variable {ring next : RingOscillator} {graph after : Graph τ} {frequency : Float32} {voice : Voice}

/-- The memo that is kept for a seat. -/
def memoAt (ring : RingOscillator) : Seat → Option WaveMemo
  | .carrier => ring.oscillator.memo
  | .branch index => ring.memos[index]?.join

/-- The seats of a voice with their timbres, in the order of its generators. -/
def seats (ring : RingOscillator) : List (Seat × Partials) :=
  (.carrier, ring.oscillator.partials) ::
    ring.branches.map fun branch => (.branch branch.index, branch.signal)

section Building

variable [Fourier]

/-- A ring in a graph that knows what its seats were given, the latest grant first. -/
structure Shares (ring : RingOscillator) (graph : Graph τ) (grants : List Grant) : Prop where
  recalls : ∀ seat, WaveMemo.Recalls graph (ring.memoAt seat) (Grant.last grants seat)
  consistent : (graph.rate == graph.rate) = true → Grant.Consistent grants

theorem Shares.ages {grants : List Grant} (shares : ring.Shares graph grants)
    (ages : graph.Ages after) : ring.Shares after grants where
  recalls := fun seat => (shares.recalls seat).ages ages
  consistent := ages.rate ▸ shares.consistent

/-- A seat asks its memo for a wave, and the other seats keep theirs. -/
theorem Shares.grant {grants : List Grant} (shares : ring.Shares graph grants) (seat : Seat)
    {timbre : Partials} (keyed : timbre.Keyed) {made : WaveMemo}
    (given : WaveMemo.wave (ring.memoAt seat) graph timbre = .ok (made, after))
    (here : next.memoAt seat = some made)
    (others : ∀ other, other ≠ seat → next.memoAt other = ring.memoAt other) :
    next.Shares after (⟨seat, timbre, made.shared⟩ :: grants) := by
  obtain ⟨aged, recalls, follows⟩ := (shares.recalls seat).wave keyed given seat
  refine ⟨fun other => ?_, fun number => ?_⟩
  case refine_2 =>
    rw [aged.rate] at number
    exact (shares.consistent number).cons (follows number)
  by_cases same : other = seat
  · subst same
    rw [here, Grant.last_cons_self ⟨other, timbre, made.shared⟩]
    exact recalls
  · have apart : other ≠ (Grant.mk seat timbre made.shared).seat := same
    rw [others other same, Grant.last_cons_of_ne apart]
    exact (shares.recalls other).ages aged

/-- A branch is given a wave, and the generator that it adds plays it. -/
theorem Cascade.add_shares {cascade last : Cascade τ} {branch : Branch} {grants : List Grant}
    (shares : cascade.ring.Shares cascade.graph grants) (keyed : branch.signal.Keyed)
    (inside : branch.index < cascade.ring.memos.length)
    (added : Cascade.add frequency cascade branch = .ok last) :
    cascade.graph.Extends last.graph ∧ last.ring.bare = cascade.ring.bare ∧
      last.ring.memos.length = cascade.ring.memos.length ∧ ∃ shared key,
        last.ring.Shares last.graph (⟨.branch branch.index, branch.signal, shared⟩ :: grants) ∧
        last.graph.shared? key = some shared ∧ last.generators = cascade.generators ++ [key] ∧
        last.ring.oscillator.generators = cascade.ring.oscillator.generators ++ [key] := by
  simp only [Cascade.add, Fault.bind_ok_iff] at added
  obtain ⟨⟨voice, modulator, modulated⟩, built, added⟩ := added
  obtain ⟨made, told, given, aged, extended, plays, single, rfl⟩ := Oscillator.build_shared built
  cases added
  have weighed := cascade.graph.extends_add (.gain branch.weight)
  -- the stage with its two connections
  let staged := (modulated.add (.gain 1.0)).2
  let driven := (staged.connect (cascade.graph.addGain branch.weight).1 modulated.nodes.size
    (.knob .gain)).1
  have later : modulated.Extends (driven.connect cascade.chain modulated.nodes.size .audio).1 :=
    ((modulated.extends_add (.gain 1.0)).trans (staged.extends_connect ..)).trans
      (driven.extends_connect ..)
  have stage_aged : modulated.Ages staged := ⟨rfl, Nat.le_refl _⟩
  have older : told.Ages (driven.connect cascade.chain modulated.nodes.size .audio).1 :=
    ((aged.trans stage_aged).trans (staged.ages_connect ..)).trans (driven.ages_connect ..)
  refine ⟨(weighed.trans extended).trans later, rfl, List.length_set, made.shared, voice.carrier,
    ?_, later.shared? plays, by rw [single],
    by simp [Oscillator.absorb, Oscillator.track, Oscillator.around]⟩
  have asked : cascade.ring.Shares (cascade.graph.addGain branch.weight).2 grants :=
    shares.ages ⟨rfl, Nat.le_refl _⟩
  refine (asked.grant (.branch branch.index) keyed given ?here ?others).ages older
  case here => simp [memoAt, List.getElem?_set_self inside]
  case others =>
    intro other differs
    cases other with
    | carrier => rfl
    | branch index =>
      have apart : branch.index ≠ index := fun same => differs (congrArg Seat.branch same.symm)
      simp only [memoAt, List.getElem?_set_ne apart]

/-- The branches are given their waves one after another. -/
theorem Cascade.addAll_shares {cascade last : Cascade τ} {branches : List Branch}
    {before : List Grant} (shares : cascade.ring.Shares cascade.graph before)
    (keyed : ∀ branch ∈ branches, branch.signal.Keyed)
    (inside : ∀ branch ∈ branches, branch.index < cascade.ring.memos.length)
    (added : branches.foldlM (Cascade.add frequency) cascade = .ok last) :
    cascade.graph.Extends last.graph ∧ last.ring.bare = cascade.ring.bare ∧
      last.ring.memos.length = cascade.ring.memos.length ∧ ∃ grants keys,
        last.ring.Shares last.graph (grants.reverse ++ before) ∧
        grants.map (fun grant => (grant.seat, grant.timbre)) =
          branches.map (fun branch => (.branch branch.index, branch.signal)) ∧
        List.Forall₂ (fun grant key => last.graph.shared? key = some grant.shared) grants keys ∧
        last.generators = cascade.generators ++ keys ∧
        last.ring.oscillator.generators = cascade.ring.oscillator.generators ++ keys := by
  induction branches generalizing cascade before with
  | nil =>
    cases added
    exact ⟨.refl _, rfl, rfl, [], [], shares, rfl, .nil, by simp, by simp⟩
  | cons branch rest ih =>
    rw [List.foldlM_cons, Fault.bind_ok_iff] at added
    obtain ⟨next, first, others⟩ := added
    obtain ⟨extended, bare, length, shared, key, shares, plays, generators, counted⟩ :=
      Cascade.add_shares shares (keyed branch List.mem_cons_self)
        (inside branch List.mem_cons_self) first
    obtain ⟨extended', bare', length', grants, keys, shares, seats, play, generators', counted'⟩ :=
      ih shares (fun other mem => keyed other (List.mem_cons_of_mem _ mem))
        (fun other mem => length ▸ inside other (List.mem_cons_of_mem _ mem)) others
    refine ⟨extended.trans extended', bare'.trans bare, length'.trans length,
      ⟨.branch branch.index, branch.signal, shared⟩ :: grants, key :: keys, ?_, ?_,
      .cons (extended'.shared? plays) play, ?_, ?_⟩
    · rwa [List.reverse_cons, List.append_assoc]
    · rw [List.map_cons, seats, List.map_cons]
    · rw [generators', generators, List.append_assoc]
      rfl
    · rw [counted', counted, List.append_assoc]
      rfl

omit [Fourier] in
theorem memoAt_reserve (ring : RingOscillator) (seat : Seat) :
    ring.reserve.memoAt seat = ring.memoAt seat := by
  cases seat with
  | carrier => rfl
  | branch index =>
    simp only [memoAt, reserve, List.rightpad]
    by_cases kept : index < ring.memos.length
    · rw [List.getElem?_append_left kept]
    · rw [List.getElem?_append_right (Nat.le_of_not_lt kept), List.getElem?_replicate,
        List.getElem?_eq_none (Nat.le_of_not_lt kept)]
      split <;> rfl

/-- A voice gives each seat a wave, and its generators play these waves. -/
theorem build_shares {before : List Grant} (shares : ring.Shares graph before)
    (keyed : ring.oscillator.partials.Keyed) (signals : ∀ signal ∈ ring.signals, signal.Keyed)
    (built : ring.build graph frequency = .ok (voice, next, after)) :
    after.rate = graph.rate ∧ next.bare = ring.bare ∧ ∃ grants,
      next.Shares after (grants.reverse ++ before) ∧
      grants.map (fun grant => (grant.seat, grant.timbre)) = ring.seats ∧
      List.Forall₂ (fun grant key => after.shared? key = some grant.shared) grants
        voice.generators ∧
      next.oscillator.generators = ring.oscillator.generators ++ voice.generators := by
  simp only [build, Fault.bind_ok_iff] at built
  obtain ⟨⟨carrier, oscillator, spawned_graph⟩, spawned, last, added, built⟩ := built
  obtain ⟨made, told, given, aged, extended, plays, rfl⟩ := Oscillator.spawn_shared spawned
  let begun : RingOscillator := { ring with oscillator := { ring.oscillator with
    memo := some made
    nodes := ring.oscillator.nodes ++ [carrier]
    generators := ring.oscillator.generators ++ [carrier] } }
  have served : begun.Shares told
      (⟨.carrier, ring.oscillator.partials, made.shared⟩ :: before) := by
    refine shares.grant .carrier keyed given rfl fun other differs => ?_
    cases other with
    | carrier => exact absurd rfl differs
    | branch index => rfl
  have reserved : begun.reserve.Shares spawned_graph
      (⟨.carrier, ring.oscillator.partials, made.shared⟩ :: before) := by
    have served := served.ages aged
    exact ⟨fun seat => memoAt_reserve begun seat ▸ served.recalls seat, served.consistent⟩
  have inside (branch : Branch) (mem : branch ∈ ring.branches) :
      branch.index < begun.reserve.memos.length :=
    index_lt_of_mem_branches (show branch ∈ begun.branches from mem)
  obtain ⟨extended', bare, -, grants, keys, shares', seats, play, generators, counted⟩ :=
    Cascade.addAll_shares reserved (fun branch mem => signals _ (signal_of_mem_branches mem))
      inside added
  cases built
  have connected := last.graph.extends_connect last.chain last.ring.oscillator.output .audio
  refine ⟨((extended.trans extended').trans connected).rate, bare,
    ⟨.carrier, ring.oscillator.partials, made.shared⟩ :: grants, ?_, ?_, ?_, ?_⟩
  · rw [List.reverse_cons, List.append_assoc]
    exact shares'.ages (last.graph.ages_connect ..)
  · rw [List.map_cons, seats]
    rfl
  · rw [generators]
    exact .cons (connected.shared? (extended'.shared? plays))
      (play.imp fun _ _ plays => connected.shared? plays)
  · rw [counted, generators]
    simp [reserve]

/-- So does a note that is scheduled. -/
theorem schedule_shares [TimeAxis τ] {before : List Grant} (shares : ring.Shares graph before)
    (keyed : ring.oscillator.partials.Keyed) (signals : ∀ signal ∈ ring.signals, signal.Keyed)
    {note : Note τ} {position : τ} {delays : Delays τ}
    (scheduled : ring.schedule graph note position = .ok (delays, next, after)) :
    after.rate = graph.rate ∧ next.bare = ring.bare ∧ ∃ grants keys,
      next.Shares after (grants.reverse ++ before) ∧
      grants.map (fun grant => (grant.seat, grant.timbre)) = ring.seats ∧
      List.Forall₂ (fun grant key => after.shared? key = some grant.shared) grants keys ∧
      next.oscillator.generators = ring.oscillator.generators ++ keys := by
  simp only [schedule, Fault.bind_ok_iff] at scheduled
  obtain ⟨⟨voice, built_ring, built_graph⟩, built, scheduled⟩ := scheduled
  obtain ⟨rate, bare, grants, shares', seats, plays, counted⟩ :=
    build_shares shares keyed signals built
  obtain ⟨waves, aged⟩ := voice.arm_shared built_graph note position
  cases scheduled
  exact ⟨aged.rate.trans rate, bare, grants, voice.generators, shares'.ages aged, seats,
    plays.imp fun _ key plays => (waves key).trans plays, counted⟩

/-- However many stages there are, a memo is kept for every place. -/
theorem Cascade.length_memos {cascade last : Cascade τ} {branches : List Branch}
    (added : branches.foldlM (Cascade.add frequency) cascade = .ok last) :
    last.ring.memos.length = cascade.ring.memos.length := by
  induction branches generalizing cascade with
  | nil =>
    cases added
    rfl
  | cons branch rest ih =>
    rw [List.foldlM_cons, Fault.bind_ok_iff] at added
    obtain ⟨next, first, others⟩ := added
    refine (ih others).trans ?_
    simp only [Cascade.add, Fault.bind_ok_iff] at first
    obtain ⟨_, -, first⟩ := first
    cases first
    exact List.length_set

/-! ### A ring in use -/

end Building

/-- What a voice gave the seats of a ring, read off the generators that came with it. -/
def given (ring : RingOscillator) (after : Graph τ) (keys : List NodeKey) : List Grant :=
  (ring.seats.zip keys).filterMap fun entry =>
    (after.shared? entry.2).map fun shared => ⟨entry.1.1, entry.1.2, shared⟩

theorem given_eq {grants : List Grant} {keys : List NodeKey}
    (seats : grants.map (fun grant => (grant.seat, grant.timbre)) = ring.seats)
    (plays : List.Forall₂ (fun grant key => after.shared? key = some grant.shared) grants keys) :
    ring.given after keys = grants := by
  rw [given, ← seats]
  clear seats
  induction plays with
  | nil => rfl
  | cons first _ ih => simp [first, ih]

/-- A ring in its graph, with all that its voices were given, the latest grant first. -/
structure Usage (τ : Type) where
  ring : RingOscillator
  graph : Graph τ
  grants : List Grant

namespace Usage

/-- What can be done with a ring, and with its graph besides. -/
inductive Call (τ : Type) where
  | build (frequency : Float32)
  | schedule (note : Note τ) (position : τ)
  | free
  | assign (timbre : Timbre)
  | setPartial (index amplitude : Float32)
  | erasePartial (index : Float32)
  | modulate (signals : List Timbre) (weights : List Float32)
  | wave
  | follow
  | setFrequency (frequency : Float32)
  | elsewhere (operation : Graph.Operation τ)

/-- A ring that was just made. -/
def create (graph : Graph τ) (timbre : Timbre) : Usage τ :=
  let (ring, graph) := RingOscillator.create graph timbre.1
  ⟨ring, graph, []⟩

/-- The ring sounds: the generators that came are listed with their waves. A fault leaves all as it
was. -/
def sing (used : Usage τ) : Except Fault (RingOscillator × Graph τ) → Usage τ
  | .ok (ring, graph) =>
    let keys := ring.oscillator.generators.drop used.ring.oscillator.generators.length
    ⟨ring, graph, (used.ring.given graph keys).reverse ++ used.grants⟩
  | .error _ => used

/-- The ring hands out the wave of its carrier. -/
def hand (used : Usage τ) : Except Fault (SharedWave × Oscillator × Graph τ) → Usage τ
  | .ok (shared, oscillator, graph) =>
    ⟨{ used.ring with oscillator }, graph,
      ⟨.carrier, used.ring.oscillator.partials, shared⟩ :: used.grants⟩
  | .error _ => used

/-- The ring is changed together with its graph. -/
def put (used : Usage τ) (made : RingOscillator × Graph τ) : Usage τ :=
  { used with ring := made.1, graph := made.2 }

section Granting

variable [Fourier]

/-- Every timbre of the ring has its indices once, and the ring knows what its seats were given. -/
structure Sound (used : Usage τ) : Prop where
  timbre : used.ring.oscillator.partials.Keyed
  signals : ∀ signal ∈ used.ring.signals, signal.Keyed
  shares : used.ring.Shares used.graph used.grants

variable {used next : Usage τ}

theorem sound_create (graph : Graph τ) (timbre : Timbre) : (create graph timbre).Sound where
  timbre := timbre.2
  signals := fun _ mem => absurd mem List.not_mem_nil
  shares := by
    refine ⟨fun seat => ?_, fun _ => ?_⟩
    · cases seat <;> exact ⟨rfl, nofun⟩
    · intro grant earlier suffix
      exact absurd suffix.length_le (by simp [create])

/-- Where no wave is asked for and every seat keeps its memo, the ring stays sound. -/
theorem Sound.keep (sound : used.Sound) (timbre : next.ring.oscillator.partials.Keyed)
    (signals : ∀ signal ∈ next.ring.signals, signal.Keyed) (ages : used.graph.Ages next.graph)
    (memos : ∀ seat, next.ring.memoAt seat = used.ring.memoAt seat)
    (grants : next.grants = used.grants) : next.Sound where
  timbre := timbre
  signals := signals
  shares := by
    have shares := sound.shares.ages ages
    rw [grants]
    exact ⟨fun seat => memos seat ▸ shares.recalls seat, shares.consistent⟩

theorem Sound.withPartials (sound : used.Sound) {partials : Partials} (keyed : partials.Keyed) :
    Sound { used with ring := used.ring.withPartials partials } :=
  sound.keep keyed sound.signals (.refl _) (fun seat => by cases seat <;> rfl) rfl

theorem Sound.modulate (sound : used.Sound) (signals : List Timbre) (weights : List Float32) :
    (used.put (used.ring.modulate used.graph (signals.map (·.1)) weights)).Sound := by
  refine sound.keep sound.timbre (fun signal mem => ?_) ?_ (fun seat => by cases seat <;> rfl) rfl
  · obtain ⟨timbre, -, rfl⟩ := List.mem_map.mp mem
    exact timbre.2
  · simp only [put, RingOscillator.modulate]
    split
    · exact .refl _
    · exact ⟨rfl, Nat.le_refl _⟩

/-- To turn the knobs of a ring or to free its voices leaves the waves where they are. -/
theorem Sound.withOscillator (sound : used.Sound)
    {f : Oscillator → Graph τ → Oscillator × Graph τ} (leaves : Oscillator.LeavesWaves f)
    (ages : used.graph.Ages (f used.ring.oscillator used.graph).2) :
    (used.put (used.ring.withOscillator used.graph f)).Sound := by
  obtain ⟨partials, memo⟩ := leaves used.ring.oscillator used.graph
  refine sound.keep ?_ sound.signals ages (fun seat => ?_) rfl
  · show (f used.ring.oscillator used.graph).1.partials.Keyed
    exact partials ▸ sound.timbre
  · cases seat with
    | carrier => exact memo
    | branch index => rfl

theorem Sound.hand (sound : used.Sound) :
    (used.hand (used.ring.oscillator.wave used.graph)).Sound := by
  cases asked : used.ring.oscillator.wave used.graph with
  | error fault => exact sound
  | ok handed =>
    simp only [Oscillator.wave, Fault.bind_ok_iff] at asked
    obtain ⟨⟨made, told⟩, given, same⟩ := asked
    cases same
    refine ⟨sound.timbre, sound.signals, ?_⟩
    refine sound.shares.grant .carrier sound.timbre given rfl fun other differs => ?_
    cases other with
    | carrier => exact absurd rfl differs
    | branch index => rfl

/-- Where each seat is given a wave, the ring stays sound and the grants are listed. -/
theorem Sound.sing (sound : used.Sound) {ring : RingOscillator} {after : Graph τ}
    {grants : List Grant} {keys : List NodeKey} (bare : ring.bare = used.ring.bare)
    (shares : ring.Shares after (grants.reverse ++ used.grants))
    (seats : grants.map (fun grant => (grant.seat, grant.timbre)) = used.ring.seats)
    (plays : List.Forall₂ (fun grant key => after.shared? key = some grant.shared) grants keys)
    (counted : ring.oscillator.generators = used.ring.oscillator.generators ++ keys) :
    (used.sing (.ok (ring, after))).Sound ∧
      (used.sing (.ok (ring, after))).grants =
        (used.ring.given after keys).reverse ++ used.grants ∧
      (used.ring.given after keys).map (fun grant => (grant.seat, grant.timbre)) =
        used.ring.seats := by
  have sung : used.sing (.ok (ring, after)) = ⟨ring, after, grants.reverse ++ used.grants⟩ := by
    simp only [Usage.sing, counted, List.drop_left, given_eq seats plays]
  have partials : ring.oscillator.partials = used.ring.oscillator.partials :=
    congrArg (·.oscillator.partials) bare
  have signals : ring.signals = used.ring.signals := congrArg (·.signals) bare
  rw [sung, given_eq seats plays]
  exact ⟨⟨partials ▸ sound.timbre, signals ▸ sound.signals, shares⟩, rfl, seats⟩

variable [TimeAxis τ]

/-- The ring and its graph after something is done. -/
def call (used : Usage τ) : Call τ → Usage τ
  | .build frequency => used.sing ((used.ring.build used.graph frequency).map (·.2))
  | .schedule note position => used.sing ((used.ring.schedule used.graph note position).map (·.2))
  | .free => used.put (used.ring.free used.graph)
  | .assign timbre => { used with ring := used.ring.withPartials timbre.1 }
  | .setPartial index amplitude =>
    { used with ring := used.ring.withPartials (used.ring.oscillator.partials.set index amplitude) }
  | .erasePartial index =>
    { used with ring := used.ring.withPartials (used.ring.oscillator.partials.erase index) }
  | .modulate signals weights =>
    used.put (used.ring.modulate used.graph (signals.map (·.1)) weights)
  | .wave => used.hand (used.ring.oscillator.wave used.graph)
  | .follow => used.put (used.ring.withOscillator used.graph Oscillator.follow)
  | .setFrequency frequency =>
    used.put (used.ring.withOscillator used.graph fun oscillator graph =>
      oscillator.setFrequency graph frequency)
  | .elsewhere operation => { used with graph := used.graph.perform operation }

/-- Whatever is done keeps the ring sound. -/
theorem Sound.call (sound : used.Sound) (call : Call τ) : (used.call call).Sound := by
  cases call with
  | build frequency =>
    simp only [Usage.call]
    cases built : used.ring.build used.graph frequency with
    | error fault => exact sound
    | ok made =>
      obtain ⟨-, bare, grants, shares, seats, plays, counted⟩ :=
        build_shares sound.shares sound.timbre sound.signals built
      exact (sound.sing bare shares seats plays counted).1
  | schedule note position =>
    simp only [Usage.call]
    cases scheduled : used.ring.schedule used.graph note position with
    | error fault => exact sound
    | ok made =>
      obtain ⟨-, bare, grants, keys, shares, seats, plays, counted⟩ :=
        schedule_shares sound.shares sound.timbre sound.signals scheduled
      exact (sound.sing bare shares seats plays counted).1
  | free =>
    exact sound.withOscillator (fun _ _ => ⟨rfl, rfl⟩) (Oscillator.ages_free ..)
  | assign timbre => exact sound.withPartials timbre.2
  | setPartial index amplitude => exact sound.withPartials (sound.timbre.set index amplitude)
  | erasePartial index => exact sound.withPartials (sound.timbre.erase index)
  | modulate signals weights => exact sound.modulate signals weights
  | wave => exact sound.hand
  | follow => exact sound.withOscillator (fun _ _ => ⟨rfl, rfl⟩) (used.graph.ages_setValue ..)
  | setFrequency frequency =>
    exact sound.withOscillator (fun _ _ => ⟨rfl, rfl⟩) (used.graph.ages_setValue ..)
  | elsewhere operation =>
    exact sound.keep sound.timbre sound.signals (used.graph.ages_perform operation)
      (fun _ => rfl) rfl

theorem Sound.run (sound : used.Sound) (calls : List (Call τ)) :
    (calls.foldl Usage.call used).Sound := by
  induction calls generalizing used with
  | nil => exact sound
  | cons first rest ih => exact ih (sound.call first)

/-- Nothing changes the rate of the graph. -/
theorem Sound.rate_call (sound : used.Sound) (call : Call τ) :
    (used.call call).graph.rate = used.graph.rate := by
  cases call with
  | build frequency =>
    simp only [Usage.call]
    cases built : used.ring.build used.graph frequency with
    | error fault => rfl
    | ok made => exact (build_shares sound.shares sound.timbre sound.signals built).1
  | schedule note position =>
    simp only [Usage.call]
    cases scheduled : used.ring.schedule used.graph note position with
    | error fault => rfl
    | ok made => exact (schedule_shares sound.shares sound.timbre sound.signals scheduled).1
  | free => exact (used.ring.oscillator.ages_free used.graph).rate
  | modulate signals weights =>
    simp only [Usage.call, put, RingOscillator.modulate]
    split <;> rfl
  | wave =>
    simp only [Usage.call]
    cases asked : used.ring.oscillator.wave used.graph with
    | error fault => rfl
    | ok handed =>
      simp only [Oscillator.wave, Fault.bind_ok_iff] at asked
      obtain ⟨_, given, same⟩ := asked
      cases same
      exact (WaveMemo.reported_wave given).extends.rate
  | follow => exact (used.graph.ages_setValue ..).rate
  | setFrequency frequency => exact (used.graph.ages_setValue ..).rate
  | elsewhere operation => exact (used.graph.ages_perform operation).rate
  | _ => rfl

theorem Sound.rate_run (sound : used.Sound) (calls : List (Call τ)) :
    (calls.foldl Usage.call used).graph.rate = used.graph.rate := by
  induction calls generalizing used with
  | nil => rfl
  | cons first rest ih => exact (ih (sound.call first)).trans (sound.rate_call first)

/-- The waves of a ring are shared as far as they can be. -/
structure SharesWaves (used : Usage τ) : Prop where
  /-- No index of a memo is out of range, however many stages a voice has already. -/
  inside : ∀ frequency carrier oscillator spawned done branch rest cascade,
    used.ring.oscillator.spawn used.graph frequency = .ok (carrier, oscillator, spawned) →
    used.ring.branches = done ++ branch :: rest →
    done.foldlM (Cascade.add frequency)
      ⟨reserve { used.ring with oscillator }, spawned, [carrier], carrier⟩ = .ok cascade →
    branch.index < cascade.ring.memos.length
  /-- The seats of one voice differ. -/
  once : (used.ring.seats.map (·.1)).Nodup
  /-- A voice that is built gives each seat a wave. -/
  build : ∀ frequency voice next after,
    used.ring.build used.graph frequency = .ok (voice, next, after) →
      (used.call (.build frequency)).grants =
        (used.ring.given after voice.generators).reverse ++ used.grants ∧
      (used.ring.given after voice.generators).map (fun grant => (grant.seat, grant.timbre)) =
        used.ring.seats
  /-- So does a note that is scheduled. -/
  schedule : ∀ note position delays next after,
    used.ring.schedule used.graph note position = .ok (delays, next, after) →
      ∃ keys, next.oscillator.generators = used.ring.oscillator.generators ++ keys ∧
        (used.call (.schedule note position)).grants =
          (used.ring.given after keys).reverse ++ used.grants ∧
        (used.ring.given after keys).map (fun grant => (grant.seat, grant.timbre)) =
          used.ring.seats
  /-- The very wave of the last time is given again just if the timbres count as equal. -/
  consistent : Grant.Consistent used.grants
  /-- Every seat keeps the wave that it was given last. -/
  kept : ∀ seat, (used.ring.memoAt seat).map (·.shared) =
    (Grant.last used.grants seat).map (·.shared)

theorem Sound.sharesWaves (sound : used.Sound)
    (number : (used.graph.rate == used.graph.rate) = true) : used.SharesWaves where
  inside := by
    intro frequency carrier oscillator spawned done branch rest cascade _ split added
    have mem : branch ∈ used.ring.branches :=
      split ▸ List.mem_append_right done List.mem_cons_self
    let begun := { used.ring with oscillator }
    rw [Cascade.length_memos added]
    exact index_lt_of_mem_branches (show branch ∈ begun.branches from mem)
  once := by
    have indices := used.ring.index_branches_nodup
    rw [seats, List.map_cons, List.map_map, List.nodup_cons]
    have apart := indices.map (f := Seat.branch) fun _ _ same => Seat.branch.inj same
    rw [List.map_map] at apart
    exact ⟨by simp, apart⟩
  build := by
    intro frequency voice next after built
    obtain ⟨-, bare, grants, shares, seats, plays, counted⟩ :=
      build_shares sound.shares sound.timbre sound.signals built
    simp only [Usage.call, built]
    exact (sound.sing bare shares seats plays counted).2
  schedule := by
    intro note position delays next after scheduled
    obtain ⟨-, bare, grants, keys, shares, seats, plays, counted⟩ :=
      schedule_shares sound.shares sound.timbre sound.signals scheduled
    simp only [Usage.call, scheduled]
    exact ⟨keys, counted, (sound.sing bare shares seats plays counted).2⟩
  consistent := sound.shares.consistent number
  kept := fun seat => (sound.shares.recalls seat).shared

/-- Whatever is done with a ring in a graph with a rate that is a number, its waves are shared as
far as they can be. -/
theorem waves_shared {graph : Graph τ} (number : (graph.rate == graph.rate) = true)
    (timbre : Timbre) (calls : List (Call τ)) :
    (calls.foldl call (create graph timbre)).SharesWaves := by
  have made := sound_create graph timbre
  have rate : (calls.foldl call (create graph timbre)).graph.rate = graph.rate :=
    made.rate_run calls
  exact (made.run calls).sharesWaves (rate ▸ number)

end Granting

/-- The second signal rests for a voice and comes back changed, while the first one stays. -/
theorem waves_shared_trio :
    let timbre : Timbre := ⟨.ofList [(2.0, 1.0)], Partials.keyed_ofList _⟩
    let other : Timbre := ⟨.ofList [(1.0, 0.5)], Partials.keyed_ofList _⟩
    let calls : List (Call Float) := [.modulate [timbre, timbre] [0.5, 0.5], .build 440.0,
      .modulate [timbre, timbre] [0.5, 0.0], .build 330.0, .free,
      .modulate [timbre, other, other] [0.5, 0.5], .build 220.0]
    let used := calls.foldl call (create (.atRate 4.0) timbre)
    (((Graph.atRate 4.0 : Graph Float).rate == (Graph.atRate 4.0 : Graph Float).rate) = true ∧
      used.SharesWaves) ∧
      used.grants.map (fun grant => (grant.seat, grant.shared.serial)) =
        [(.branch 1, 3), (.branch 0, 1), (.carrier, 0), (.branch 0, 1), (.carrier, 0),
          (.branch 1, 2), (.branch 0, 1), (.carrier, 0)] := by
  intro timbre other calls used
  have number : ((Graph.atRate 4.0 : Graph Float).rate == (Graph.atRate 4.0 : Graph Float).rate) =
      true := rfl
  exact ⟨⟨number, waves_shared number timbre calls⟩, by decide +kernel⟩

/-- At a rate that is not a number no wave is found again. -/
theorem waves_not_shared_at_nan :
    let timbre : Timbre := ⟨.ofList [(2.0, 1.0)], Partials.keyed_ofList _⟩
    let calls : List (Call Float) := [.build 440.0, .build 440.0]
    let used := calls.foldl call (create (.atRate (0.0 / 0.0)) timbre)
    ¬ Grant.Consistent used.grants := by
  intro timbre calls used consistent
  have seen : used.grants.map (fun grant => (grant.seat, grant.shared.serial)) =
      [(.carrier, 1), (.carrier, 0)] := by decide +kernel
  have equal : (used.grants.zip used.grants.tail).map (fun pair => pair.1.timbre == pair.2.timbre) =
      [true] := by decide +kernel
  match same : used.grants with
  | [grant, old] =>
    simp only [same, List.map_cons, List.map_nil, List.cons.injEq, Prod.mk.injEq, and_true] at seen
    obtain ⟨⟨seat, serial⟩, seat', serial'⟩ := seen
    have follows := consistent grant [old] (same ▸ List.suffix_refl _) old (by
      simp [Grant.last, seat, seat'])
    have timbres : (grant.timbre == old.timbre) = true := by simpa [same] using equal
    have shared := follows.serial.mpr timbres
    omega
  | [] | [_] | _ :: _ :: _ :: _ => simp [same] at seen

end Usage

end RingOscillator

end Patchbay
