import Patchbay.Proofs.Number.Rationals
import Patchbay.Proofs.Transport.Performance
import Patchbay.Proofs.Transport.Timekeeping

/-!
# Notes at their positions

A generator is armed with clock times that hang on the position at which its note was scheduled. In
exact arithmetic the position drops out: from then on the generator sounds just while the position
of the transport is inside the note. Neither pauses nor further projects move an edge of a note,
only a reset or a move does.
-/
namespace Patchbay

/-- Is a position inside the note? Its begin belongs to it and its end does not. -/
def Note.Covers (note : Note ℚ) (position : ℚ) : Prop :=
  note.begins ≤ position ∧ position < note.ends

namespace Generator

theorem isSounding_iff {τ : Type} [TimeAxis τ] {g : Generator τ} {start stop : τ}
    (starts : g.starts = some start) (stops : g.stops = some stop) (time : τ) :
    g.isSounding time = true ↔ start ≤ time ∧ ¬ stop ≤ time := by
  simp [isSounding, hasFinished, starts, stops]

/-- A generator that was armed for a note sounds just while the position is inside the note. -/
theorem isSounding_iff_covers {g : Generator ℚ} {note : Note ℚ} {now location : ℚ}
    (starts : g.starts = some (now + (note.delays (now - location)).start))
    (stops : g.stops = some (now + (note.delays (now - location)).stop)) {t : ℚ}
    (reached : now ≤ t) : g.isSounding t = true ↔ note.Covers (t - location) := by
  rw [isSounding_iff starts stops, Note.delays, TimeAxis.add_atLeastZero_le_iff reached,
    TimeAxis.add_atLeastZero_le_iff reached, not_le]
  rfl

end Generator

/-- A note that has ended at a position covers none that comes after it. -/
theorem Note.not_covers_of_ended {note : Note ℚ} {position later : ℚ}
    (ended : ¬ position < note.ends) (reached : position ≤ later) : ¬ note.Covers later := by
  rintro ⟨-, inside⟩
  exact ended (lt_of_le_of_lt reached inside)

/-! ### From one project to the next -/

section Continuing

variable {τ : Type} [TimeAxis τ]

namespace Transport

variable {transport : Transport τ}

/-- A transport goes on with what it plays: the project stays where it is, and racks and nodes stay
but for the phases of generators. -/
structure GoesOn (before after : Transport τ) : Prop where
  location : after.location = before.location
  racks : after.racks = before.racks
  nodes : before.graph.SameButPhases after.graph

omit [TimeAxis τ] in
theorem GoesOn.trans {before middle after : Transport τ} (first : GoesOn before middle)
    (second : GoesOn middle after) : GoesOn before after where
  location := second.location.trans first.location
  racks := second.racks.trans first.racks
  nodes := first.nodes.trans second.nodes

variable [Fourier]

/-- To play, to pause and to render go on. -/
theorem Sound.goesOn_perform (sound : transport.Sound) {operation : Operation τ}
    (stays : operation.relocates = false) (alone : projects [operation] = []) :
    GoesOn transport (transport.perform operation) := by
  cases operation with
  | play =>
    show GoesOn transport transport.play
    unfold Transport.play
    split <;> exact ⟨rfl, rfl, fun _ => rfl⟩
  | pause =>
    show GoesOn transport transport.pause
    unfold Transport.pause
    split <;> exact ⟨rfl, rfl, fun _ => rfl⟩
  | reset => cases stays
  | seek position => cases stays
  | reconcile project => cases alone
  | render frames =>
    obtain ⟨samples, graph, rendered, after⟩ := sound.perform_render frames
    rw [after]
    exact ⟨rfl, rfl, (Graph.elapsed_render rendered).phases⟩

theorem Sound.goesOn_foldl (sound : transport.Sound) {operations : List (Operation τ)}
    (stays : ∀ operation ∈ operations, operation.relocates = false)
    (alone : projects operations = []) :
    GoesOn transport (operations.foldl Transport.perform transport) := by
  induction operations generalizing transport with
  | nil => exact ⟨rfl, rfl, fun _ => rfl⟩
  | cons operation rest ih =>
    have split : projects [operation] = [] ∧ projects rest = [] := by
      rw [← List.append_eq_nil_iff, projects, projects, ← List.filterMap_append]
      exact alone
    obtain ⟨here, later⟩ := List.forall_mem_cons.mp stays
    exact (sound.goesOn_perform here split.1).trans (ih (sound.perform operation) later split.2)

/-- The project begins at the same time until a reset or a move. -/
theorem Sound.location_foldl (sound : transport.Sound) (inStep : transport.InStep)
    {operations : List (Operation τ)}
    (stays : ∀ operation ∈ operations, operation.relocates = false) :
    (operations.foldl Transport.perform transport).location = transport.location := by
  induction operations generalizing transport with
  | nil => rfl
  | cons operation rest ih =>
    obtain ⟨here, later⟩ := List.forall_mem_cons.mp stays
    rw [List.foldl_cons, ih (sound.perform operation) (sound.inStep_perform inStep operation) later]
    exact (sound.clock_perform inStep operation).2 here

end Transport

end Continuing

/-! ### Notes that are played at their positions -/

namespace Transport

section Playing

variable [Fourier]

/-- From a time on, a generator of this timbre sounds just while the position is inside a note. -/
def SoundsInside (transport : Transport ℚ) (since : ℚ) (timbre : Partials) (note : Note ℚ)
    (key : NodeKey) : Prop :=
  ∃ g, transport.graph.node? key = some (.generator g) ∧
    { g with player := g.player.rewind }.Plays transport.graph.rate timbre ∧
    ∀ t, since ≤ t → (g.isSounding t = true ↔ note.Covers (t - transport.location))

/-- From the time at which a project was scheduled, its notes are played at their positions. -/
structure OnTime (transport : Transport ℚ) (project : Project ℚ) (since : ℚ) : Prop where
  /-- Each oscillator has a voice for each note that had not ended, in the order of the notes. -/
  voices : ∀ name instrument, project.instruments.find? name = some instrument →
    ∀ id partials, instrument.oscillators.find? id = some partials →
      ∃ ring voices, transport.ring? name id = some ring ∧
        ring.oscillator.generators = voices.flatten ∧
        List.Forall₂ (fun note voice =>
          List.Forall₂ (fun timbre key => transport.SoundsInside since timbre note key)
            (partials :: instrument.modulators id) voice)
          (project.pending name (since - transport.location)) voices
  /-- No position inside any of the others is to come. -/
  passed : ∀ name notes, project.tracks.find? name = some notes →
    ∀ note ∈ notes, note ∉ project.pending name (since - transport.location) →
      ∀ t, since ≤ t → ¬ note.Covers (t - transport.location)

/-- What was scheduled at a time is on time for as long as the transport goes on. -/
theorem Performs.onTime {scheduled last : Transport ℚ} {project : Project ℚ} {since : ℚ}
    (performs : scheduled.Performs project since (since - scheduled.location))
    (goesOn : GoesOn scheduled last) (rate : last.graph.rate = scheduled.graph.rate) :
    last.OnTime project since where
  voices := by
    intro name instrument described id partials listed
    obtain ⟨ring, voices, found, counted, played⟩ :=
      performs.voices name instrument described id partials listed
    refine ⟨ring, voices, ?_, counted, ?_⟩
    · rw [ring?, goesOn.racks]
      exact found
    · rw [goesOn.location]
      refine played.imp fun note voice generators => generators.imp fun timbre key sounds => ?_
      obtain ⟨g, lives, plays, -, starts, stops⟩ := sounds
      obtain ⟨moved, lives', same⟩ := goesOn.nodes.generator lives
      refine ⟨moved, lives', ?_, fun t reached => ?_⟩
      · obtain ⟨made, wave, stands, is_wave, player⟩ := plays
        rw [rate]
        refine ⟨made, wave, stands, is_wave, ?_⟩
        rw [same, player]
        rfl
      · obtain ⟨-, -, -, starts', stops'⟩ := Generator.mk.inj same
        rw [goesOn.location]
        exact Generator.isSounding_iff_covers (starts'.trans starts) (stops'.trans stops) reached
  passed := by
    intro name notes track note listed left t reached
    have ended : ¬ since - last.location < note.ends := by
      refine fun ahead => left (List.mem_filter.mpr ⟨?_, decide_eq_true ahead⟩)
      rw [track]
      exact listed
    exact Note.not_covers_of_ended ended (by linarith)

/-- Frames that are played come later, as long as they can be counted. -/
theorem Sound.now_le_foldl {transport : Transport ℚ} (sound : transport.Sound)
    (inStep : transport.InStep) (positive : 0.0 < transport.graph.rate)
    {operations : List (Operation ℚ)} (countable : transport.graph.clock.frames.toNat +
      transport.playedIn operations < 2 ^ 64) :
    transport.now ≤ (operations.foldl Transport.perform transport).now := by
  obtain ⟨-, frames⟩ := sound.clock_foldl inStep operations
  obtain ⟨-, rate⟩ := sound.foldl operations
  have counted : (operations.foldl Transport.perform transport).graph.clock.frames.toNat =
      transport.graph.clock.frames.toNat + transport.playedIn operations := by
    rw [frames, UInt64.toNat_add]
    have small : (transport.playedIn operations).toUInt64.toNat = transport.playedIn operations :=
      Nat.mod_eq_of_lt (by omega)
    rw [small]
    exact Nat.mod_eq_of_lt countable
  have time (other : Transport ℚ) : other.now =
      TimeAxis.ofFrames other.graph.clock.frames other.graph.rate :=
    other.graph.clock.now_eq
  rw [time, time, rate]
  exact TimeAxis.ofFrames_mono positive (by omega)

/-- To schedule a project takes no time. -/
theorem Sound.now_reconcile {transport : Transport ℚ} (sound : transport.Sound)
    (inStep : transport.InStep) (project : Project ℚ) :
    (transport.reconcile project).state.graph.clock.frames = transport.graph.clock.frames ∧
      (transport.reconcile project).state.now = transport.now := by
  obtain ⟨clock, -⟩ := sound.clock_perform inStep (.reconcile project)
  have frames : (transport.reconcile project).state.graph.clock.frames =
      transport.graph.clock.frames := (congrArg Clock.frames clock).trans (UInt64.add_zero _)
  refine ⟨frames, ?_⟩
  simp only [Transport.now, Graph.now, Clock.now_eq, frames]
  exact congrArg _ (sound.rate_reconcile project)

/-- Whatever was done before, the notes of the project that was scheduled last sound at their
positions: from then on, and for as long as nothing but playing, pausing and rendering is done, each
of their generators sounds at exactly those times at which the position is inside its note. Notes
that were not scheduled, as they had ended, would not sound at any of these times. The project
begins at the same time however often it is scheduled and whatever pauses there are, so that neither
moves an edge of a note. Where waves cannot be made, there is no generator. Frames that can be
counted are taken at these times and no earlier. -/
theorem notes_at_positions (settings : Settings) (positive : 0.0 < settings.sampleRate)
    (operations between later : List (Operation ℚ)) (project : Project ℚ)
    (playing : project.playing = true)
    (stays : ∀ operation ∈ between ++ later, operation.relocates = false)
    (alone : projects later = []) :
    let start := after settings operations
    let before := between.foldl perform start
    let scheduled := (before.reconcile project).state
    let last := later.foldl perform scheduled
    last.location = start.location ∧
      (binCount settings.sampleRate ≤ Partials.maxBins → last.OnTime project before.now) ∧
      (Partials.maxBins < binCount settings.sampleRate →
        ∀ key, last.graph.kind? key ≠ some .generator) ∧
      (before.graph.clock.frames.toNat + scheduled.playedIn later < 2 ^ 64 →
        before.now ≤ last.now ∧ ∀ i, last.now ≤ last.graph.block.timeAt i) := by
  intro start before scheduled last
  obtain ⟨stays_between, stays_later⟩ := List.forall_mem_append.mp stays
  -- transport by transport: racks and graph, the clock, and the place of the project
  obtain ⟨start_sound, start_rate⟩ : start.Sound ∧ start.graph.rate = settings.sampleRate :=
    sound_after settings operations
  have start_inStep : start.InStep :=
    ((sound_create settings).clock_foldl rfl operations).1
  obtain ⟨before_sound, before_rate⟩ : before.Sound ∧ before.graph.rate = start.graph.rate :=
    start_sound.foldl between
  have before_inStep : before.InStep := (start_sound.clock_foldl start_inStep between).1
  have before_location : before.location = start.location :=
    start_sound.location_foldl start_inStep stays_between
  have scheduled_sound : scheduled.Sound := before_sound.reconcile project
  have scheduled_rate : scheduled.graph.rate = before.graph.rate :=
    before_sound.rate_reconcile project
  obtain ⟨clock, location⟩ := before_sound.clock_perform before_inStep (.reconcile project)
  have scheduled_inStep : scheduled.InStep := congrArg Clock.running clock
  have scheduled_location : scheduled.location = before.location := location rfl
  have goesOn : GoesOn scheduled last := scheduled_sound.goesOn_foldl stays_later alone
  obtain ⟨last_sound, last_rate⟩ : last.Sound ∧ last.graph.rate = scheduled.graph.rate :=
    scheduled_sound.foldl later
  have rate : last.graph.rate = settings.sampleRate :=
    last_rate.trans (scheduled_rate.trans (before_rate.trans start_rate))
  refine ⟨goesOn.location.trans (scheduled_location.trans before_location), fun fits => ?_,
    fun large key generator => ?_, fun countable => ⟨?_, fun i => ?_⟩⟩
  · obtain ⟨-, performs⟩ :=
      before_sound.performs playing (before_rate.trans start_rate ▸ fits)
    rw [position, ← scheduled_location] at performs
    exact performs.onTime goesOn last_rate
  · obtain ⟨name, id, ring, found, counted⟩ := last_sound.counted_of_generator generator
    rw [(Racks.Sound.idle last_sound (rate ▸ large) found).2.2] at counted
    cases counted
  · obtain ⟨same_frames, same_now⟩ := before_sound.now_reconcile before_inStep project
    rw [← same_now]
    refine scheduled_sound.now_le_foldl scheduled_inStep ?_ (same_frames ▸ countable)
    rw [scheduled_rate, before_rate, start_rate]
    exact positive
  · have lasts := TimeAxis.ofFrames_nonneg (rate ▸ positive) i.toUInt64
    rw [Block.timeAt]
    exact le_add_of_nonneg_right lasts

end Playing

theorem notes_at_positions_demo :
    let voice := Project.plain (Project.harmonics [1.0])
    let project : Project ℚ := { ((Project.empty.addInstrument "a" voice.1 voice.2).addTrack "a"
      [⟨440.0, 1 / 8, 2⟩, ⟨220.0, 0, 1 / 4⟩]) with playing := true }
    let operations : List (Operation ℚ) := [.play, .render 40, .seek (1 / 4)]
    let between := [.reconcile project, .render 300, .pause, .render 5, .play]
    let later := [.render 4000, .pause, .render 20]
    let start := after {} operations
    let before := between.foldl perform start
    let last := later.foldl perform (before.reconcile project).state
    0.0 < ({} : Settings).sampleRate ∧ project.playing = true ∧
      (∀ operation ∈ between ++ later, operation.relocates = false) ∧ projects later = [] ∧
      last.location = start.location ∧ last.OnTime project before.now :=
  have onTime := notes_at_positions {} (by decide) _ _ _ _ rfl
    (by simp [Operation.relocates]) rfl
  ⟨by decide, rfl, by simp [Operation.relocates], rfl, onTime.1, onTime.2.1 (by decide)⟩

end Transport

end Patchbay
