import Patchbay.Project.Demo
import Patchbay.Proofs.Transport.History

/-!
# What is played

A project that is to be played has exactly the voices that its notes ask for. Each note gives one
voice to each oscillator of its instrument, with a carrier and with one modulator for each weight
that is not zero. What earlier projects left in the racks plays no part.
-/
namespace Patchbay

variable {τ : Type}

/-! ### The generators of a voice -/

namespace Sheet

/-- The timbres of the generators, the carrier first. -/
def timbres (sheet : Sheet τ) : List Partials :=
  sheet.timbre :: sheet.branches.map (·.signal)

variable [Fourier]

/-- A node is a generator of the voice with this timbre. -/
def Voices (sheet : Sheet τ) (graph : Graph τ) (rate : Float32) (timbre : Partials)
    (key : NodeKey) : Prop :=
  ∃ g, graph.node? key = some (.generator g) ∧ g.Plays rate timbre ∧
    g.frequency = sheet.frequency ∧ g.starts = sheet.starts ∧ g.stops = sheet.stops

theorem forall₂_stages (sheet : Sheet τ) {graph : Graph τ} {rate : Float32} {chain : Nat}
    {branches : List Branch} (shows : ∀ i component,
      (branches.flatMap sheet.branch)[i]? = some component →
        ∃ node, graph.node? (chain + 1 + i) = some node ∧ component.Shown rate node) :
    List.Forall₂ (sheet.Voices graph rate) (branches.map (·.signal))
      (stageGenerators chain branches.length) := by
  induction branches generalizing chain with
  | nil => exact .nil
  | cons branch rest ih =>
    refine .cons ?_ (ih fun i component listed => ?_)
    · obtain ⟨node, found, shown⟩ := shows 1 (sheet.generator branch.signal) rfl
      obtain ⟨g, rfl, plays⟩ := shown
      exact ⟨g, found, plays⟩
    · have later : ((branch :: rest).flatMap sheet.branch)[i + 3]? = some component := by
        rw [List.flatMap_cons, List.getElem?_append_right (by simp [Sheet.branch])]
        simpa [Sheet.branch] using listed
      obtain ⟨node, found, shown⟩ := shows (i + 3) component later
      have same : chain + 3 + 1 + i = chain + 1 + (i + 3) := by omega
      exact ⟨node, same ▸ found, shown⟩

/-- The generators of a voice play its timbres. -/
theorem forall₂_voices {sheet : Sheet τ} {graph : Graph τ} {rate : Float32} {base : Nat}
    (shows : graph.Shows rate base sheet) : List.Forall₂ (sheet.Voices graph rate) sheet.timbres
      (voiceGenerators base sheet.branches.length) := by
  refine .cons ?_ (sheet.forall₂_stages fun i component listed => ?_)
  · obtain ⟨node, found, shown⟩ := shows 0 (sheet.generator sheet.timbre) rfl
    obtain ⟨g, rfl, plays⟩ := shown
    exact ⟨g, found, plays⟩
  · obtain ⟨node, found, shown⟩ := shows (i + 1) component listed
    have same : base + 1 + i = base + (i + 1) := by omega
    exact ⟨node, same ▸ found, shown⟩

end Sheet

/-! ### The modulators that a mix asks for -/

namespace Instrument

/-- The weight at which the oscillator at an index modulates: that of the mix, or zero where the
mix has none. -/
def weightAt (instrument : Instrument) (id : String) (index : Nat) : Float32 :=
  ((instrument.mixes.find? id).getD [])[index]?.getD 0.0

/-- The timbres of the modulators of an oscillator. -/
def modulators (instrument : Instrument) (id : String) : List Partials :=
  (instrument.oscillators.values.zipIdx.filter fun (_, index) =>
    instrument.weightAt id index != 0.0).map (·.1)

theorem getElem_weights (instrument : Instrument) (id : String) {index : Nat}
    (h : index < (instrument.weights id).length) :
    (instrument.weights id)[index] = instrument.weightAt id index := by
  have within : index < instrument.oscillators.entries.length := by
    simpa [signals, Roster.values] using h
  simp only [weights, weightAt, List.rightpad]
  rw [List.getElem_append]
  split
  · rename_i listed
    rw [List.length_take] at listed
    rw [List.getElem_take, List.getElem?_eq_getElem (by omega), Option.getD_some]
  · rename_i beyond
    rw [List.length_take] at beyond
    rw [List.getElem_replicate, List.getElem?_eq_none (by omega), Option.getD_none]

end Instrument

/-- A ring that is set as its instrument describes has the modulators of the mix. -/
theorem RingOscillator.signals_branches {ring : RingOscillator} {instrument : Instrument}
    {id : String} (signals : ring.signals = instrument.signals)
    (weights : ring.weights = instrument.weights id) :
    ring.branches.map (·.signal) = instrument.modulators id := by
  have all : (ring.signals.zip ring.weights).zipIdx.map (fun entry =>
      (⟨entry.2, entry.1.1, entry.1.2⟩ : Branch)) = instrument.signals.zipIdx.map fun entry =>
        ⟨entry.2, entry.1, instrument.weightAt id entry.2⟩ := by
    refine List.ext_getElem (by simp [signals, weights]) fun index h h' => ?_
    have within : index < (instrument.weights id).length := by
      simpa [signals, weights] using h
    simp [signals, weights, instrument.getElem_weights id within]
  simp only [branches, all, Instrument.modulators, List.filter_map, List.map_map]
  rfl

/-! ### The calls for one oscillator -/

theorem flatMap_eq_of_nodup {α β : Type} {list : List α} {f : α → List β} {a : α}
    (once : list.Nodup) (mem : a ∈ list) (others : ∀ b ∈ list, b ≠ a → f b = []) :
    list.flatMap f = f a := by
  induction list with
  | nil => cases mem
  | cons b rest ih =>
    obtain ⟨absent, once⟩ := List.nodup_cons.mp once
    rw [List.flatMap_cons]
    by_cases here : b = a
    · subst here
      have nothing : rest.flatMap f = [] := by
        rw [List.flatMap_eq_nil_iff]
        exact fun c later =>
          others c (List.mem_cons_of_mem _ later) fun same => absent (same ▸ later)
      rw [nothing, List.append_nil]
    · have later : a ∈ rest := (List.mem_cons.mp mem).resolve_left fun same => here same.symm
      rw [others b List.mem_cons_self here, List.nil_append]
      exact ih once later fun c mem => others c (List.mem_cons_of_mem _ mem)

theorem Call.map_voicesOf (name id : String) (base : Nat) (calls : List (Call τ)) :
    (voicesOf name id (placed base calls)).map (·.2) = calls.filter (·.isFor name id) := by
  induction calls generalizing base with
  | nil => rfl
  | cons call rest ih =>
    have rest_voices := ih (base + call.width)
    simp only [voicesOf] at rest_voices
    simp only [voicesOf, placed, List.filter_cons]
    split
    · rw [List.map_cons, rest_voices]
    · exact rest_voices

theorem Rack.filter_calls [TimeAxis τ] {rack : Rack} {ids : List String} (once : ids.Nodup)
    {id : String} (mem : id ∈ ids) {ring : RingOscillator}
    (found : rack.oscillators.find? id = some ring) (name : String) (now position : τ)
    (note : Note τ) : (rack.calls name now position ids note).filter (·.isFor name id) =
      [⟨name, id, ring.sheet now position note⟩] := by
  simp only [Rack.calls, List.filter_flatMap]
  rw [flatMap_eq_of_nodup once mem]
  · simp [found, Call.isFor]
  · intro other _ differs
    cases rack.oscillators.find? other <;> simp [Call.isFor, differs]

/-- The voices that notes ask of a ring play its timbres, note by note. -/
theorem RingOscillator.forall₂_voices [Fourier] [TimeAxis τ] (ring : RingOscillator)
    {graph : Graph τ} {rate : Float32} (now position : τ) {placed : List (Nat × Call τ)}
    {notes : List (Note τ)}
    (shows : ∀ p ∈ placed, graph.Shows rate p.1 p.2.sheet)
    (asked : placed.map (·.2.sheet) = notes.map (ring.sheet now position)) :
    List.Forall₂ (fun note voice =>
        List.Forall₂ ((ring.sheet now position note).Voices graph rate)
          (ring.sheet now position note).timbres voice)
      notes (placed.map Call.generatorsOf) := by
  rw [List.forall₂_map_right_iff]
  rw [← List.forall₂_eq_eq_eq, List.forall₂_map_left_iff, List.forall₂_map_right_iff] at asked
  refine ((List.forall₂_and_left _ _).mpr ⟨shows, asked⟩).flip.imp fun note p voice => ?_
  obtain ⟨shown, same⟩ := voice
  have sounding := Sheet.forall₂_voices shown
  rw [Call.generatorsOf]
  rwa [same] at sounding ⊢

/-! ### What a project that is played sounds like -/

/-- The notes in the track of an instrument that have not ended at a position. -/
def Project.pending [TimeAxis τ] (project : Project τ) (name : String) (position : τ) :
    List (Note τ) :=
  ((project.tracks.find? name).getD []).filter fun note => position < note.ends

/-- When a time of a project is there, seen from a position that is reached now. What has passed is
there at once. -/
def due [TimeAxis τ] (now position time : τ) : τ :=
  now + if 0 < time - position then time - position else 0

namespace Transport

variable [TimeAxis τ]

/-- The calls that a project makes of one oscillator are those of its notes, in order. -/
theorem filter_calls {transport : Transport τ} {project : Project τ} {name id : String}
    (known : name ∈ project.instruments.names) {rack : Rack}
    (found_rack : transport.racks.find? name = some rack) (once : rack.active.Nodup)
    (takes_part : id ∈ rack.active) {ring : RingOscillator}
    (found : rack.oscillators.find? id = some ring) :
    (transport.calls project).filter (·.isFor name id) =
      (project.pending name transport.position).map fun note =>
        ⟨name, id, ring.sheet transport.now transport.position note⟩ := by
  rw [calls, List.filter_flatMap, flatMap_eq_of_nodup project.instruments.names_nodup known]
  · simp only [Racks.callsOf, found_rack, Option.elim, List.filter_flatMap, Project.pending,
      Project.notesOf, Rack.filter_calls once takes_part found, List.map_eq_flatMap]
  · intro other _ differs
    rw [List.filter_eq_nil_iff]
    intro call mem
    simp only [Call.isFor, decide_eq_true_eq, not_and]
    exact fun same => absurd ((of_mem_callsOf mem).1.symm.trans same) differs

/-- A call asks an oscillator for the voice of a note. -/
theorem sheet_of_mem_calls {transport : Transport τ} {project : Project τ} {call : Call τ}
    (mem : call ∈ transport.calls project)
    {ring : RingOscillator}
    (found : Racks.ring? transport.racks.find? call.name call.id = some ring) :
    ∃ note, call.sheet = ring.sheet transport.now transport.position note := by
  obtain ⟨name, -, mem⟩ := List.mem_flatMap.mp mem
  unfold Racks.callsOf at mem
  cases found_rack : transport.racks.find? name with
  | none =>
    rw [found_rack] at mem
    cases mem
  | some rack =>
    rw [found_rack] at mem
    obtain ⟨note, -, mem⟩ := List.mem_flatMap.mp mem
    obtain ⟨id, -, called⟩ := List.mem_flatMap.mp mem
    obtain ⟨same, found_same, rfl⟩ := Option.map_eq_some_iff.mp (Option.mem_toList.mp called)
    have found_here : Racks.ring? transport.racks.find? name id = some same :=
      Option.bind_eq_some_iff.mpr ⟨rack, found_rack, found_same⟩
    obtain rfl : same = ring := Option.some.inj (found_here.symm.trans found)
    exact ⟨note, rfl⟩

/-- The voices of an oscillator are there only if waves can be made, each for a note. -/
theorem of_mem_voicesOf {transport : Transport τ} {project : Project τ} {name id : String}
    {rate : Float32} {base : Nat} {p : Nat × Call τ}
    (voiced : p ∈ Call.voicesOf name id
      (Call.placed base (playable rate (transport.calls project))))
    {ring : RingOscillator} (found : Racks.ring? transport.racks.find? name id = some ring) :
    binCount rate ≤ Partials.maxBins ∧
      p ∈ Call.placed base (playable rate (transport.calls project)) ∧
      (p.2.name = name ∧ p.2.id = id) ∧
      ∃ note, p.2.sheet = ring.sheet transport.now transport.position note := by
  obtain ⟨placed, is_for⟩ := List.mem_filter.mp voiced
  have named : p.2.name = name ∧ p.2.id = id := by simpa [Call.isFor] using is_for
  have called := Call.mem_of_mem_placed placed
  unfold playable at called
  split at called
  · rename_i fits
    exact ⟨fits, placed, named, sheet_of_mem_calls called (by rw [named.1, named.2, found])⟩
  · cases called

section Performing

variable [Fourier]

/-- A generator of this timbre and frequency is armed from one time to another. -/
def Sounds (transport : Transport τ) (timbre : Partials) (frequency : Float32) (start stop : τ)
    (key : NodeKey) : Prop :=
  ∃ g, transport.graph.node? key = some (.generator g) ∧
    g.Plays transport.graph.rate timbre ∧ g.frequency = frequency ∧
    g.starts = some start ∧ g.stops = some stop

/-- The generators in the graph are those that the notes of a project ask for. -/
structure Performs (transport : Transport τ) (project : Project τ) (now position : τ) : Prop where
  /-- Each oscillator has a voice for each note that has not ended, in the order of the notes. -/
  voices : ∀ name instrument, project.instruments.find? name = some instrument →
    ∀ id partials, instrument.oscillators.find? id = some partials →
      ∃ ring voices, transport.ring? name id = some ring ∧
        ring.oscillator.generators = voices.flatten ∧
        List.Forall₂ (fun note voice =>
          List.Forall₂ (fun timbre key => transport.Sounds timbre
              (if ring.oscillator.followsNote then note.frequency else 0.0)
              (due now position note.begins) (due now position note.ends) key)
            (partials :: instrument.modulators id) voice)
          (project.pending name position) voices
  /-- No oscillator counts a generator twice. -/
  once : ∀ name id ring, transport.ring? name id = some ring → ring.oscillator.generators.Nodup
  /-- No two oscillators count the same generator. -/
  apart : ∀ name id ring name' id' ring' key, transport.ring? name id = some ring →
    transport.ring? name' id' = some ring' → key ∈ ring.oscillator.generators →
    key ∈ ring'.oscillator.generators → name = name' ∧ id = id'
  /-- Every generator belongs to an oscillator that the project describes. -/
  complete : ∀ key, transport.graph.kind? key = some .generator →
    ∃ name instrument id ring, project.instruments.find? name = some instrument ∧
      instrument.oscillators.contains id ∧ transport.ring? name id = some ring ∧
      key ∈ ring.oscillator.generators

variable {transport : Transport τ}

/-- A reconciliation with a project that is to be played, where waves can be made. -/
theorem Sound.performs (sound : transport.Sound) {project : Project τ}
    (playing : project.playing = true)
    (fits : binCount transport.graph.rate ≤ Partials.maxBins) :
    (transport.reconcile project).fault = none ∧
      (transport.reconcile project).state.Performs project transport.now transport.position := by
  obtain ⟨scheduled, fault, result_sound, rate, nodes, -, turned⟩ := sound.reconcile_playing playing
  have cleared := sound.clear project
  have all : playable transport.graph.rate ((transport.cleared project).calls project) =
      (transport.cleared project).calls project := if_pos fits
  rw [all] at turned
  have view (key : NodeKey) :
      (transport.reconcile project).state.graph.node? key = scheduled.node? key := by
    simp only [Graph.node?, nodes]
  refine ⟨fault.trans (if_pos (.inl fits)), ?_⟩
  constructor
  case once => exact fun name id ring found => result_sound.generators_nodup found
  case apart =>
    intro name id ring name' id' ring' key found found' mem mem'
    have same := result_sound.ledger.apart _ _ key (result_sound.held_of_generator found mem)
      (result_sound.held_of_generator found' mem')
    injection same with same_name same_id
    exact ⟨same_name, same_id⟩
  case voices =>
    intro name instrument described id partials listed
    obtain ⟨rack, found_rack, full⟩ := cleared.furnished name instrument described
    obtain ⟨ring, found, timbre, signals, weights⟩ := full.oscillators id partials listed
    have known : name ∈ project.instruments.names :=
      Roster.mem_names_of_find? described
    have takes_part : id ∈ rack.active := by
      rw [full.active]
      exact Roster.mem_names_of_find? listed
    have found_ring : Racks.ring? (transport.cleared project).racks.find? name id = some ring := by
      rw [Racks.ring?, found_rack]
      exact found
    obtain ⟨played, found_played, bare, -, generators⟩ := turned.rings name id ring found_ring
    have follows : played.oscillator.followsNote = ring.oscillator.followsNote :=
      congrArg (·.oscillator.followsNote) bare
    have asked := filter_calls known found_rack
      (full.active ▸ instrument.oscillators.names_nodup) takes_part found
    rw [cleared.now, cleared.position] at asked
    obtain ⟨voices, is_voices⟩ : ∃ voices, voices = Call.voicesOf name id (Call.placed
        (transport.cleared project).graph.nodes.size
          ((transport.cleared project).calls project)) := ⟨_, rfl⟩
    have sheets : voices.map (·.2.sheet) =
        (project.pending name transport.position).map
          (ring.sheet transport.now transport.position) := by
      have listed_voices := congrArg (List.map (·.sheet)) (Call.map_voicesOf name id
        (transport.cleared project).graph.nodes.size ((transport.cleared project).calls project))
      rw [asked, List.map_map, List.map_map, ← is_voices] at listed_voices
      exact listed_voices
    have shows (p : Nat × Call τ) (mem : p ∈ voices) :
        scheduled.Shows transport.graph.rate p.1 p.2.sheet := by
      rw [is_voices] at mem
      exact cleared.rate ▸ turned.new p (List.mem_filter.mp mem).1
    have timbres (note : Note τ) : (ring.sheet transport.now transport.position note).timbres =
        partials :: instrument.modulators id := by
      rw [← RingOscillator.signals_branches signals weights, ← timbre]
      rfl
    refine ⟨played, voices.map Call.generatorsOf, found_played, ?_, ?_⟩
    · rw [generators, if_pos known, List.nil_append, List.flatMap_def, is_voices]
    · refine (ring.forall₂_voices _ _ shows sheets).imp fun note voice sounding => ?_
      rw [timbres] at sounding
      refine sounding.imp fun sound_of key voices => ?_
      obtain ⟨g, found_g, plays, frequency, starts, stops⟩ := voices
      refine ⟨g, (view key).trans found_g, rate ▸ plays, ?_, starts, stops⟩
      rw [frequency, follows]
      rfl
  case complete =>
    intro key generator
    obtain ⟨name, id, ring, found, mem⟩ := result_sound.counted_of_generator generator
    obtain ⟨old, -, -, -, generators⟩ := sound.ring_of_turned turned found
    rw [generators] at mem
    obtain ⟨p, voiced, member⟩ := List.mem_flatMap.mp mem
    obtain ⟨placed, is_for⟩ := List.mem_filter.mp voiced
    simp only [Call.isFor, decide_eq_true_eq] at is_for
    obtain ⟨instrument, described, listed⟩ :=
      sound.described_of_mem_calls (Call.mem_of_mem_placed placed)
    rw [is_for.1] at described
    rw [is_for.2] at listed
    refine ⟨name, instrument, id, ring, described, listed, found, ?_⟩
    rw [generators]
    exact List.mem_flatMap.mpr ⟨p, voiced, member⟩

/-- Whatever was done before, at a rate at which waves can be made: to reconcile with a project that
is to be played ends without a fault, and the generators are then those that its notes ask for. -/
theorem reconcile_performs (settings : Settings) (operations : List (Operation τ))
    (project : Project τ) (fits : binCount settings.sampleRate ≤ Partials.maxBins)
    (playing : project.playing = true) :
    let before := after settings operations
    (before.reconcile project).fault = none ∧
      (before.reconcile project).state.Performs project before.now before.position := by
  obtain ⟨sound, rate⟩ := sound_after settings operations
  exact sound.performs playing (rate.symm ▸ fits)

/-- A carrier and its partner play three notes, each begun before the one before has ended. -/
def pair : Project Float :=
  { (Project.empty.addInstrument "pair" Project.modulated.1 Project.modulated.2).addTrack "pair"
      [⟨440.0, 0.0, 0.25⟩, ⟨220.0, 0.25, 2.0⟩, ⟨330.0, 1.0, 3.0⟩] with playing := true }

end Performing

theorem reconcile_performs_pair :
    let settings : Settings := { sampleRate := 8.0 }
    let solo := Project.plain (Project.harmonics [1.0])
    let earlier := (pair.addInstrument "solo" solo.1 solo.2).addTrack "solo" [⟨110.0, 0.0, 9.0⟩]
    let operations : List (Operation Float) := [.reconcile earlier, .render 4, .seek 0.5, .pause,
      .reconcile { pair with playing := false }, .render 3]
    let before := after settings operations
    let scheduled := (before.reconcile pair).state
    let generators (id : String) := (scheduled.ring? "pair" id).map (·.oscillator.generators)
    let armed (key : NodeKey) :=
      (scheduled.graph.generator? key).map fun g => (g.frequency, g.starts, g.stops)
    binCount settings.sampleRate ≤ Partials.maxBins ∧ pair.playing = true ∧
      (before.reconcile pair).fault = none ∧ scheduled.Performs pair before.now before.position ∧
      before.now = 0.5 ∧ before.position = 0.5 ∧
      generators "carrier" = some [25, 27, 30, 32] ∧ generators "partner" = some [29, 34] ∧
      (∀ key ∈ [25, 27], armed key = some (220.0, some 0.5, some 2.0)) ∧
      (∀ key ∈ [30, 32], armed key = some (330.0, some 1.0, some 3.0)) ∧
      armed 29 = some (0.0, some 0.5, some 2.0) ∧ armed 34 = some (0.0, some 1.0, some 3.0) := by
  intro settings solo earlier operations before scheduled generators armed
  obtain ⟨fault, performs⟩ := reconcile_performs settings operations pair (by decide) rfl
  have reached : before.now = 0.5 ∧ before.position = 0.5 := by decide +kernel
  have counted : generators "carrier" = some [25, 27, 30, 32] ∧
      generators "partner" = some [29, 34] := by decide +kernel
  refine ⟨by decide, rfl, fault, performs, reached.1, reached.2, counted.1, counted.2, ?_⟩
  decide +kernel

end Transport

end Patchbay
