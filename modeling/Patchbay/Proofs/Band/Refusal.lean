import Patchbay.Proofs.Band.Redundancy

/-!
# Where no wave can be made

At some sample rates the buffers of a wave would not fit into memory, and the first voice that is
asked for ends a reconciliation. By then all instruments are equipped and nothing of a voice is
there, so that the transport is left as by a project that asks for no voice.
-/
namespace Patchbay

variable {τ : Type} [TimeAxis τ]

/-- A project asks for a voice at a position: one of its instruments has an oscillator and a note
that has not ended. -/
def Project.AsksAt (project : Project τ) (position : τ) : Prop :=
  ∃ name instrument, project.instruments.find? name = some instrument ∧
    (∃ id, instrument.oscillators.contains id) ∧
    ∃ note ∈ project.notesOf name, position < note.ends

/-- The same instruments and cables without notes, to be played or not. -/
def Project.noteless (project : Project τ) (playing : Bool) : Project τ :=
  { project with playing, tracks := .empty }

namespace Transport

variable {transport other : Transport τ}

/-! ### Calls that are refused -/

/-- A rack of the project is asked for a voice just if its instrument has an oscillator and a note
that has not ended. -/
theorem callsOf_eq_nil_iff {racks : Racks} {name : String} {rack : Rack} {instrument : Instrument}
    (found : racks name = some rack) (full : rack.Furnished instrument) (now position : τ)
    (notes : List (Note τ)) : racks.callsOf now position name notes = [] ↔
      ¬ ((∃ id, instrument.oscillators.contains id) ∧ ∃ note ∈ notes, position < note.ends) := by
  simp only [Racks.callsOf, found, Option.elim_some, List.flatMap_eq_nil_iff, List.mem_filter,
    decide_eq_true_eq, Rack.calls, full.active, Option.toList_eq_nil_iff, Option.map_eq_none_iff]
  constructor
  · rintro nothing ⟨⟨id, listed⟩, note, mem, ahead⟩
    obtain ⟨partials, described⟩ := Option.isSome_iff_exists.mp listed
    obtain ⟨ring, made, -⟩ := full.oscillators id partials described
    have absent := nothing note ⟨mem, ahead⟩ id (Roster.contains_iff_mem_names.mp listed)
    rw [made] at absent
    cases absent
  · intro silent note asked id listed
    exact absurd ⟨⟨id, Roster.contains_iff_mem_names.mpr listed⟩, note, asked⟩ silent

section Refusing

variable [Fourier]

/-- A project makes calls just if it asks for a voice. -/
theorem Sound.calls_eq_nil_iff (sound : transport.Sound) (project : Project τ) :
    (transport.cleared project).calls project = [] ↔ ¬ project.AsksAt transport.position := by
  have cleared := sound.clear project
  simp only [calls, List.flatMap_eq_nil_iff, cleared.position]
  constructor
  · rintro nothing ⟨name, instrument, described, asks⟩
    obtain ⟨rack, found, full⟩ := cleared.furnished name instrument described
    have known := Roster.mem_names_of_find? described
    exact (callsOf_eq_nil_iff found full ..).mp (nothing name known) asks
  · intro silent name known
    obtain ⟨instrument, described⟩ :=
      Option.isSome_iff_exists.mp (Roster.contains_iff_mem_names.mpr known)
    obtain ⟨rack, found, full⟩ := cleared.furnished name instrument described
    exact (callsOf_eq_nil_iff found full ..).mpr fun asks =>
      silent ⟨name, instrument, described, asks⟩

/-- The report that ends the scheduling of a project. -/
def reported (transport : Transport τ) : Transport τ :=
  { transport with
    graph := transport.graph.log (.notesScheduled transport.position transport.graph.nodeCount) }

/-- Where no wave can be made, notes are scheduled without a change if there is no call, and refused
without a change if there is one. -/
theorem Sound.scheduleProject_of_large (sound : transport.Sound)
    (large : Partials.maxBins < binCount transport.graph.rate) (project : Project τ) :
    (transport.calls project = [] → transport.scheduleProject project = .done transport.reported) ∧
      (transport.calls project ≠ [] → transport.scheduleProject project =
        .stopped transport (.bufferTooLarge (binCount transport.graph.rate))) := by
  obtain ⟨after, run, same, racks⟩ := sound.refuseAll large transport.position project.notesOf
    project.instruments.names
  have unchanged : after = transport := by
    rw [same, Roster.eq_of_find? fun name => congrFun racks name]
  have visited : Attempt.visit (fun transport' name =>
      Transport.scheduleNotes transport.position transport' name (project.notesOf name)) transport
        project.instruments.names =
      ⟨transport, Racks.faultOf transport.graph.rate (transport.calls project)⟩ :=
    unchanged ▸ run
  unfold Transport.scheduleProject
  simp only [visited]
  constructor
  · intro none_asked
    have no_fault : Racks.faultOf transport.graph.rate (transport.calls project) = none :=
      if_pos (.inr none_asked)
    rw [no_fault]
    rfl
  · intro asked
    have fault : Racks.faultOf transport.graph.rate (transport.calls project) =
        some (.bufferTooLarge (binCount transport.graph.rate)) :=
      if_neg fun either => either.elim (Nat.not_le.mpr large) asked
    rw [fault]
    rfl

/-- A reconciliation is refused with the instruments equipped, if the project is to be played and
asks for a voice. -/
theorem Sound.reconcile_refused (sound : transport.Sound)
    (large : Partials.maxBins < binCount transport.graph.rate) {project : Project τ}
    (playing : project.playing = true) (asks : project.AsksAt transport.position) :
    transport.reconcile project = .stopped (transport.cleared project)
      (.bufferTooLarge (binCount transport.graph.rate)) := by
  have cleared := sound.clear project
  have asked := mt (sound.calls_eq_nil_iff project).mp (not_not_intro asks)
  have refused := (cleared.sound.scheduleProject_of_large (cleared.rate ▸ large) project).2 asked
  rw [reconcile_eq, playing, if_pos rfl, refused, cleared.rate]
  rfl

/-- Without a call it comes to its end. -/
theorem Sound.reconcile_silent (sound : transport.Sound)
    (large : Partials.maxBins < binCount transport.graph.rate) {project : Project τ}
    (playing : project.playing = true) (silent : ¬ project.AsksAt transport.position) :
    transport.reconcile project =
      .done ((transport.cleared project).reported.followState true) := by
  have cleared := sound.clear project
  have none_asked := (sound.calls_eq_nil_iff project).mpr silent
  have done := (cleared.sound.scheduleProject_of_large (cleared.rate ▸ large) project).1 none_asked
  rw [reconcile_eq, playing, if_pos rfl, done]
  rfl

/-- Where no wave can be made, a project without notes that leaves the play state as it is equips
its instruments, and nothing else is changed but reports. -/
theorem Sound.reconcile_noteless (sound : transport.Sound)
    (large : Partials.maxBins < binCount transport.graph.rate) (project : Project τ) :
    ∃ journal, transport.reconcile (project.noteless transport.isPlaying) =
      .done { transport.cleared project with
        graph := { (transport.cleared project).graph with journal } } := by
  have same : transport.cleared (project.noteless transport.isPlaying) =
      transport.cleared project := rfl
  have stands : (transport.cleared project).state = transport.state := by
    rw [(sound.clear project).rest]
  cases state : transport.state with
  | stopped =>
    have still : (project.noteless transport.isPlaying).playing = false := by
      show transport.isPlaying = false
      rw [isPlaying, state]
      rfl
    refine ⟨(transport.cleared project).graph.journal, ?_⟩
    rw [reconcile_eq, still, if_neg Bool.false_ne_true, Attempt.done_andThen, same,
      followState_of_stopped (stands.trans state)]
  | playing =>
    have playing : (project.noteless transport.isPlaying).playing = true := by
      show transport.isPlaying = true
      rw [isPlaying, state]
      rfl
    have silent : ¬ (project.noteless transport.isPlaying).AsksAt transport.position := by
      rintro ⟨name, instrument, -, -, note, mem, -⟩
      cases mem
    have plays : (transport.cleared project).reported.state = .playing := stands.trans state
    refine ⟨(transport.cleared project).reported.graph.journal, ?_⟩
    rw [sound.reconcile_silent large playing silent, same, followState_of_playing plays]
    rfl

/-! ### Transports in unison -/

namespace Unison

variable {band : String → Prop}

omit [TimeAxis τ] in
/-- To report something changes nothing that is in unison. -/
theorem log (unison : Unison band transport other) (event event' : Event τ) :
    Unison band { transport with graph := transport.graph.log event }
      { other with graph := other.graph.log event' } := by
  obtain ⟨f, alike⟩ := unison.alike
  exact ⟨⟨f, alike.reported (Graph.reported_log _ _) (Graph.reported_log _ _)⟩, unison.state,
    unison.location⟩

/-- Where no wave can be made, a project is taken over or refused in unison. -/
theorem reconcile_of_large (unison : Unison (fun _ => True) transport other)
    (large : Partials.maxBins < binCount transport.graph.rate) (project : Project τ) :
    (other.reconcile project).fault = (transport.reconcile project).fault ∧
      Unison (fun _ => True) (transport.reconcile project).state
        (other.reconcile project).state := by
  have cleared := unison.cleared (Project.AgreesOn.refl _ project)
  cases playing : project.playing with
  | false =>
    rw [reconcile_eq, reconcile_eq, playing]
    exact ⟨rfl, cleared.followState false⟩
  | true =>
    have large' : Partials.maxBins < binCount other.graph.rate := unison.rate ▸ large
    by_cases asks : project.AsksAt transport.position
    · have asks' : project.AsksAt other.position := unison.position ▸ asks
      rw [unison.sound.reconcile_refused large playing asks,
        unison.sound'.reconcile_refused large' playing asks', unison.rate]
      exact ⟨rfl, cleared⟩
    · have silent : ¬ project.AsksAt other.position := unison.position ▸ asks
      rw [unison.sound.reconcile_silent large playing asks,
        unison.sound'.reconcile_silent large' playing silent]
      exact ⟨rfl, (cleared.log _ _).followState true⟩

/-- So they stay in unison whatever is done to both of them. -/
theorem perform_of_large (unison : Unison (fun _ => True) transport other)
    (large : Partials.maxBins < binCount transport.graph.rate) (operation : Operation τ) :
    Unison (fun _ => True) (transport.perform operation) (other.perform operation) := by
  cases operation with
  | play => exact unison.play
  | pause => exact unison.pause
  | reset => exact unison.reset
  | seek position => exact unison.seek position
  | reconcile project => exact (unison.reconcile_of_large large project).2
  | render n =>
    obtain ⟨samples, samples', next, next', run, run', onward, -⟩ := unison.render n
    simpa only [Transport.perform, run, run'] using onward

theorem foldl_of_large (unison : Unison (fun _ => True) transport other)
    (large : Partials.maxBins < binCount transport.graph.rate) (operations : List (Operation τ)) :
    Unison (fun _ => True) (operations.foldl Transport.perform transport)
      (operations.foldl Transport.perform other) := by
  induction operations generalizing transport other with
  | nil => exact unison
  | cons operation rest ih =>
    exact ih (unison.perform_of_large large operation)
      (unison.sound.rate_perform operation ▸ large)

end Unison

/-! ### What a refusal leaves -/

/-- Two transports stand at the same place and answer every rendering and every project in the same
way. -/
structure AnswersLike (transport other : Transport τ) : Prop where
  state : other.state = transport.state
  location : other.location = transport.location
  clock : other.graph.clock = transport.graph.clock
  heard : ∀ n, other.heard n = transport.heard n
  fault : ∀ project, (other.reconcile project).fault = (transport.reconcile project).fault

theorem Unison.answersLike (unison : Unison (fun _ => True) transport other)
    (large : Partials.maxBins < binCount transport.graph.rate) :
    transport.AnswersLike other where
  state := unison.state
  location := unison.location
  clock := unison.clock
  heard := by
    intro n
    obtain ⟨samples, samples', next, next', render, render', -, same⟩ := unison.render n
    rw [heard, heard, render, render', same fun _ => trivial]
    rfl
  fault := fun project => (unison.reconcile_of_large large project).1

omit [TimeAxis τ] in
/-- Where no wave can be made there are no voices. -/
theorem Sound.voiceless (sound : transport.Sound)
    (large : Partials.maxBins < binCount transport.graph.rate) :
    (∀ key, transport.graph.kind? key ≠ some .generator) ∧
      ∀ name id ring, transport.ring? name id = some ring →
        ring.oscillator.nodes = [] ∧ ring.oscillator.generators = [] := by
  have idle (name id : String) (ring : RingOscillator)
      (found : transport.ring? name id = some ring) :
      ring.oscillator.nodes = [] ∧ ring.oscillator.generators = [] :=
    (Racks.Sound.idle sound large found).2
  refine ⟨fun key generator => ?_, idle⟩
  obtain ⟨name, id, ring, found, counted⟩ := sound.counted_of_generator generator
  rw [(idle name id ring found).2] at counted
  cases counted

/-- A reconciliation is refused just if the project is to be played and asks for a voice, and
otherwise comes to its end. -/
theorem Sound.fault_of_large (sound : transport.Sound)
    (large : Partials.maxBins < binCount transport.graph.rate) (project : Project τ) :
    ((transport.reconcile project).fault = some (.bufferTooLarge (binCount transport.graph.rate)) ↔
      project.playing = true ∧ project.AsksAt transport.position) ∧
    (¬ (project.playing = true ∧ project.AsksAt transport.position) →
      (transport.reconcile project).fault = none) := by
  have no_fault : ¬ (project.playing = true ∧ project.AsksAt transport.position) →
      (transport.reconcile project).fault = none := by
    intro otherwise
    cases playing : project.playing with
    | false =>
      rw [reconcile_eq, playing]
      rfl
    | true =>
      rw [sound.reconcile_silent large playing fun asks => otherwise ⟨playing, asks⟩]
      rfl
  refine ⟨⟨fun fault => ?_, fun ⟨playing, asks⟩ => ?_⟩, no_fault⟩
  · by_contra otherwise
    rw [no_fault otherwise] at fault
    cases fault
  · rw [sound.reconcile_refused large playing asks]
    rfl

/-- What a refusal leaves differs in its reports from what the project without notes leaves, and in
nothing that is heard or answered later. -/
theorem Sound.cleared_as_noteless (sound : transport.Sound)
    (large : Partials.maxBins < binCount transport.graph.rate) (project : Project τ) :
    ∃ furnished, transport.reconcile (project.noteless transport.isPlaying) = .done furnished ∧
      (∃ journal, furnished = { transport.cleared project with
        graph := { (transport.cleared project).graph with journal } }) ∧
      ∀ later : List (Operation τ),
        (later.foldl Transport.perform (transport.cleared project)).AnswersLike
          (later.foldl Transport.perform furnished) := by
  have cleared := sound.clear project
  have still_large : Partials.maxBins < binCount (transport.cleared project).graph.rate :=
    cleared.rate ▸ large
  obtain ⟨journal, taken⟩ := sound.reconcile_noteless large project
  refine ⟨_, taken, ⟨journal, rfl⟩, fun later => ?_⟩
  have told_sound := sound.reconcile (project.noteless transport.isPlaying)
  rw [taken] at told_sound
  have unison : Unison (fun _ => True) (transport.cleared project)
      { transport.cleared project with
        graph := { (transport.cleared project).graph with journal } } :=
    ⟨⟨id, Racks.Sound.alike_id cleared.sound told_sound rfl (fun _ => rfl) rfl⟩, rfl, rfl⟩
  refine (unison.foldl_of_large still_large later).answersLike ?_
  rw [(Sound.foldl cleared.sound later).2]
  exact still_large

/-- Whatever was done before, refusals included, at a sample rate at which no wave can be made: a
reconciliation is refused just if the project is to be played and asks for a voice. Then the
transport stands where it did, there is no generator, and no oscillator counts a node. But for its
reports it is as the same project without notes leaves it, which is taken over without a fault, and
from then on the two answer alike, whatever is done to both of them. -/
theorem refusal_consistent (settings : Settings)
    (large : Partials.maxBins < binCount settings.sampleRate) (operations : List (Operation τ))
    (project : Project τ) :
    let before := after settings operations
    let refused := (before.reconcile project).state
    ((before.reconcile project).fault = some (.bufferTooLarge (binCount settings.sampleRate)) ↔
      project.playing = true ∧ project.AsksAt before.position) ∧
    (¬ (project.playing = true ∧ project.AsksAt before.position) →
      (before.reconcile project).fault = none) ∧
    (project.playing = true ∧ project.AsksAt before.position →
      refused.state = before.state ∧ refused.location = before.location ∧
      refused.graph.clock = before.graph.clock ∧
      (∀ key, refused.graph.kind? key ≠ some .generator) ∧
      (∀ name id ring, refused.ring? name id = some ring →
        ring.oscillator.nodes = [] ∧ ring.oscillator.generators = []) ∧
      ∃ furnished, before.reconcile (project.noteless before.isPlaying) = .done furnished ∧
        (∃ journal, furnished = { refused with graph := { refused.graph with journal } }) ∧
        ∀ later : List (Operation τ),
          (later.foldl perform refused).AnswersLike (later.foldl perform furnished)) := by
  intro before refused
  obtain ⟨sound, rate⟩ : before.Sound ∧ before.graph.rate = settings.sampleRate :=
    sound_after settings operations
  rw [← rate] at large ⊢
  obtain ⟨fault, no_fault⟩ := sound.fault_of_large large project
  refine ⟨fault, no_fault, fun ⟨playing, asks⟩ => ?_⟩
  have is_cleared : refused = before.cleared project := by
    show (before.reconcile project).state = _
    rw [sound.reconcile_refused large playing asks]
    rfl
  have cleared := sound.clear project
  obtain ⟨no_generator, idle⟩ := Sound.voiceless cleared.sound (cleared.rate ▸ large)
  rw [is_cleared]
  exact ⟨by rw [cleared.rest], by rw [cleared.rest], cleared.clock, no_generator, idle,
    Sound.cleared_as_noteless sound large project⟩

end Refusing

theorem refusal_consistent_demo :
    let settings : Settings := { sampleRate := 1.0e19 }
    let voice := Project.plain (Project.harmonics [1.0])
    let project : Project Float := { ((Project.empty.addInstrument "a" voice.1 voice.2).addTrack "a"
      [⟨440.0, 0.0, 2.0⟩, ⟨220.0, 4.0, 6.0⟩]) with playing := true }
    let before := after settings [.play, .reconcile project, .seek 5.0]
    let refused := (before.reconcile project).state
    Partials.maxBins < binCount settings.sampleRate ∧
      project.playing = true ∧ project.AsksAt before.position ∧
      (before.reconcile project).fault =
        some (.bufferTooLarge (binCount settings.sampleRate)) ∧
      (∀ key, refused.graph.kind? key ≠ some .generator) ∧
      ∃ furnished, before.reconcile (project.noteless before.isPlaying) = .done furnished ∧
        ∀ later : List (Operation Float),
          (later.foldl perform refused).AnswersLike (later.foldl perform furnished) :=
  have asks : Project.AsksAt _ (Transport.position _) := ⟨"a", _, Roster.find?_insert_self ..,
    ⟨"osc", by decide⟩, ⟨220.0, 4.0, 6.0⟩, .tail _ (.head _), by decide +kernel⟩
  have ⟨faults, _, left⟩ := refusal_consistent { sampleRate := 1.0e19 } (by decide) _ _
  have ⟨_, _, _, no_generator, _, furnished, taken, _, alike⟩ := left ⟨rfl, asks⟩
  ⟨by decide, rfl, asks, faults.mpr ⟨rfl, asks⟩, no_generator, furnished, taken, alike⟩

end Transport

end Patchbay
