import Patchbay.Proofs.Transport.Pass

/-!
# The histories of a transport

A transport comes about by operations from a new one. All of them keep its racks and its graph in
step, and what a reconciliation does can be told phase by phase.
-/
namespace Patchbay.Transport

variable {τ : Type} [TimeAxis τ] [Fourier]

/-- What can be done to a transport. -/
inductive Operation (τ : Type) where
  | play
  | pause
  | reset
  | seek (position : τ)
  | reconcile (project : Project τ)
  | render (frames : Nat)

/-- The transport after an operation. A fault leaves what was reached. -/
def perform (transport : Transport τ) : Operation τ → Transport τ
  | .play => transport.play
  | .pause => transport.pause
  | .reset => transport.reset
  | .seek position => transport.seek position
  | .reconcile project => (transport.reconcile project).state
  | .render frames =>
    match transport.render frames with
    | .ok (_, after) => after
    | .error _ => transport

/-- A new transport after operations. -/
def after (settings : Settings) (operations : List (Operation τ)) : Transport τ :=
  operations.foldl perform (create settings)

/-- The projects that operations reconcile with. -/
def projects (operations : List (Operation τ)) : List (Project τ) :=
  operations.filterMap fun
    | .reconcile project => some project
    | _ => none

/-! ### The phases of a reconciliation -/

/-- All instruments of a project are equipped. -/
def equipAll (transport : Transport τ) (project : Project τ) : Transport τ :=
  project.instruments.entries.foldl (fun transport (name, instrument) =>
    transport.equip name instrument (project.cablesOf name)) transport

/-- After that, the other instruments are silenced. -/
def cleared (transport : Transport τ) (project : Project τ) : Transport τ :=
  (transport.equipAll project).freeWhere fun name => !project.instruments.contains name

/-- The calls that the notes of a project make. -/
def calls (transport : Transport τ) (project : Project τ) : List (Call τ) :=
  project.instruments.names.flatMap fun name =>
    Racks.callsOf transport.racks.find? transport.now transport.position name
      (project.notesOf name)

theorem reconcile_eq (transport : Transport τ) (project : Project τ) :
    transport.reconcile project =
      (if project.playing then (transport.cleared project).scheduleProject project
        else .done (transport.cleared project)).andThen
          fun transport => .done (transport.followState project.playing) := rfl

variable {transport : Transport τ}

omit [TimeAxis τ] in
/-- Instruments are equipped one after another, and each leaves the racks of the others alone. -/
theorem Sound.equipEntries (sound : transport.Sound) (cables : String → List Cable)
    (entries : List (String × Instrument)) (once : (entries.map (·.1)).Nodup) :
    ∃ after, entries.foldl (fun (transport : Transport τ) (name, instrument) =>
        transport.equip name instrument (cables name)) transport = after ∧ after.Sound ∧
      after = { transport with graph := after.graph, racks := after.racks } ∧
      after.graph.clock = transport.graph.clock ∧
      (∀ name instrument, (name, instrument) ∈ entries →
        ∃ rack, after.racks.find? name = some rack ∧ rack.Furnished instrument) ∧
      ∀ name, name ∉ entries.map (·.1) → after.racks.find? name = transport.racks.find? name := by
  induction entries generalizing transport with
  | nil => exact ⟨transport, rfl, sound, rfl, rfl, by simp, fun _ _ => rfl⟩
  | cons entry rest ih =>
    obtain ⟨first, description⟩ := entry
    obtain ⟨absent, once⟩ := List.nodup_cons.mp once
    obtain ⟨rack, middle, equip, sound', full, -, clock, -⟩ :=
      sound.equip first description (cables first)
    obtain ⟨after, run, sound'', same, clock', listed, others⟩ := ih sound' once
    refine ⟨after, run, sound'', ?_, ?_, ?_, ?_⟩
    · rw [same, equip]
    · rw [clock', equip]
      exact clock
    · intro name instrument mem
      rcases List.mem_cons.mp mem with here | later
      · cases here
        refine ⟨rack, ?_, full⟩
        rw [others first absent, equip]
        exact Roster.find?_insert_self ..
      · exact listed name instrument later
    · intro name outside
      simp only [List.map_cons, List.mem_cons, not_or] at outside
      rw [others name outside.2, equip]
      exact Roster.find?_insert_of_ne outside.1 ..

/-- The racks are furnished for a project, and instruments that it lacks hold no voices. -/
structure Clears (transport : Transport τ) (project : Project τ) : Prop where
  sound : (transport.cleared project).Sound
  rest : transport.cleared project = { transport with
    graph := (transport.cleared project).graph, racks := (transport.cleared project).racks }
  clock : (transport.cleared project).graph.clock = transport.graph.clock
  furnished : ∀ name instrument, project.instruments.find? name = some instrument →
    ∃ rack, (transport.cleared project).racks.find? name = some rack ∧ rack.Furnished instrument
  silent : ∀ name id ring, project.instruments.contains name = false →
    Racks.ring? (transport.cleared project).racks.find? name id = some ring →
      ring.oscillator.nodes = [] ∧ ring.oscillator.generators = []

theorem Sound.clear (sound : transport.Sound) (project : Project τ) : transport.Clears project := by
  obtain ⟨equipped, run, sound, same, clock, listed, -⟩ :=
    sound.equipEntries project.cablesOf project.instruments.entries project.instruments.names_nodup
  have is_equipped : transport.equipAll project = equipped := run
  obtain ⟨sound', clock', -⟩ :=
    sound.freeWhere fun name => !project.instruments.contains name
  have is_cleared : transport.cleared project =
      equipped.freeWhere fun name => !project.instruments.contains name := by
    rw [cleared, is_equipped]
  constructor
  case sound =>
    rw [is_cleared]
    exact sound'
  case rest =>
    rw [is_cleared, same]
    rfl
  case clock =>
    rw [is_cleared]
    exact clock'.trans clock
  case furnished =>
    intro name instrument found
    obtain ⟨rack, found_rack, full⟩ :=
      listed name instrument (Roster.find?_eq_some_iff.mp found)
    have known := Roster.contains_of_find? found
    refine ⟨rack, ?_, full⟩
    simp [is_cleared, find?_freeWhere, found_rack, known]
  case silent =>
    intro name id ring unknown found
    rw [is_cleared, ring?_freeWhere] at found
    obtain ⟨old, -, rfl⟩ := Option.map_eq_some_iff.mp found
    simp [unknown, RingOscillator.freed]

section Clears

variable {project : Project τ} (clears : transport.Clears project)

include clears

omit [TimeAxis τ] in
/-- Meanwhile no time goes by. -/
theorem Clears.rate : (transport.cleared project).graph.rate = transport.graph.rate := by
  simp only [Graph.rate, clears.clock]

theorem Clears.now : (transport.cleared project).now = transport.now := by
  simp only [Transport.now, Graph.now, clears.clock]

theorem Clears.position : (transport.cleared project).position = transport.position := by
  rw [Transport.position, clears.now, clears.rest]
  rfl

omit [TimeAxis τ] in
/-- An oscillator of the project has a ring as it is described. -/
theorem Clears.ring {name id : String} {instrument : Instrument} {partials : Partials}
    (described : project.instruments.find? name = some instrument)
    (listed : instrument.oscillators.find? id = some partials) :
    ∃ ring, Racks.ring? (transport.cleared project).racks.find? name id = some ring ∧
      ring.oscillator.partials = partials ∧ ring.signals = instrument.signals ∧
      ring.weights = instrument.weights id := by
  obtain ⟨rack, found_rack, full⟩ := clears.furnished name instrument described
  obtain ⟨ring, found, set⟩ := full.oscillators id partials listed
  exact ⟨ring, Racks.ring?_eq_some_iff.mpr ⟨rack, found_rack, found⟩, set⟩

end Clears

/-- Where the notes of the project were scheduled, the voices of every ring are those that it was
asked for. -/
theorem Sound.ring_of_turned (sound : transport.Sound) {project : Project τ}
    {calls : List (Call τ)} {racks : Racks} {after : Graph τ}
    (turned : Racks.Turned (transport.cleared project).racks.find?
      (transport.cleared project).graph project.instruments.names calls racks after)
    {name id : String} {ring : RingOscillator} (found : racks.ring? name id = some ring) :
    let voices := Call.voicesOf name id
      (Call.placed (transport.cleared project).graph.nodes.size calls)
    ∃ old, Racks.ring? (transport.cleared project).racks.find? name id = some old ∧
      ring.bare = old.bare ∧ ring.oscillator.nodes = voices.flatMap Call.nodesOf ∧
      ring.oscillator.generators = voices.flatMap Call.generatorsOf := by
  intro voices
  cases found_old : Racks.ring? (transport.cleared project).racks.find? name id with
  | none =>
    rw [turned.absent name id found_old] at found
    cases found
  | some old =>
    obtain ⟨played, found_played, bare, nodes, generators⟩ := turned.rings name id old found_old
    rw [found] at found_played
    cases found_played
    -- nothing is left of the voices from before
    have nothing_old : (if name ∈ project.instruments.names then [] else old.oscillator.nodes) = [] ∧
        (if name ∈ project.instruments.names then [] else old.oscillator.generators) = [] := by
      by_cases known : name ∈ project.instruments.names
      · rw [if_pos known, if_pos known]
        exact ⟨rfl, rfl⟩
      · rw [if_neg known, if_neg known]
        refine (sound.clear project).silent name id old ?_ found_old
        simpa using mt Roster.contains_iff_mem_names.mp known
    rw [nothing_old.1, List.nil_append] at nodes
    rw [nothing_old.2, List.nil_append] at generators
    exact ⟨old, rfl, bare, nodes, generators⟩

/-- Only oscillators that the project describes are asked for voices. -/
theorem Sound.described_of_mem_calls (sound : transport.Sound) {project : Project τ}
    {call : Call τ} (mem : call ∈ (transport.cleared project).calls project) :
    ∃ instrument, project.instruments.find? call.name = some instrument ∧
      instrument.oscillators.contains call.id := by
  obtain ⟨name, known, called⟩ := List.mem_flatMap.mp mem
  obtain ⟨named, rack, found_rack, takes_part⟩ := of_mem_callsOf called
  obtain ⟨instrument, described⟩ := Option.isSome_iff_exists.mp
    (Roster.contains_iff_mem_names.mpr known)
  obtain ⟨rack', found_rack', full⟩ :=
    (sound.clear project).furnished name instrument described
  rw [found_rack] at found_rack'
  cases found_rack'
  rw [named]
  exact ⟨instrument, described, Roster.contains_iff_mem_names.mpr (full.active ▸ takes_part)⟩

omit [Fourier] in
theorem followState_of_stopped (stopped : transport.state = .stopped) :
    transport.followState false = transport := by
  unfold followState
  rw [stopped]

omit [Fourier] in
theorem followState_of_playing (plays : transport.state = .playing) :
    transport.followState true = transport := by
  unfold followState
  rw [plays]

omit [Fourier] in
/-- To play keeps the place and the time. -/
theorem followState_true (transport : Transport τ) :
    (transport.followState true).state = .playing ∧
      (transport.followState true).location = transport.location ∧
      (transport.followState true).settings = transport.settings ∧
      (transport.followState true).now = transport.now := by
  unfold followState play
  cases state : transport.state with
  | playing => exact ⟨state, rfl, rfl, rfl⟩
  | stopped => exact ⟨rfl, rfl, rfl, rfl⟩

omit [Fourier] in
/-- To play leaves nodes, connections and racks. -/
theorem followState_playing (transport : Transport τ) :
    (transport.followState true).racks = transport.racks ∧
      (transport.followState true).graph.nodes = transport.graph.nodes ∧
      (transport.followState true).graph.connections = transport.graph.connections ∧
      (transport.followState true).graph.rate = transport.graph.rate := by
  unfold followState
  split
  · unfold play
    split <;> exact ⟨rfl, rfl, rfl, rfl⟩
  · contradiction
  · exact ⟨rfl, rfl, rfl, rfl⟩

/-- To reconcile with a project that is to be played schedules its notes on cleared racks. -/
theorem Sound.reconcile_playing (sound : transport.Sound) {project : Project τ}
    (playing : project.playing = true) :
    let cleared := transport.cleared project
    let result := transport.reconcile project
    ∃ scheduled : Graph τ, result.fault =
        Racks.faultOf transport.graph.rate (cleared.calls project) ∧
      result.state.Sound ∧ result.state.graph.rate = transport.graph.rate ∧
      result.state.graph.nodes = scheduled.nodes ∧
      result.state.graph.connections = scheduled.connections ∧
      Racks.Turned cleared.racks.find? cleared.graph project.instruments.names
        (playable transport.graph.rate (cleared.calls project))
        result.state.racks.find? scheduled := by
  intro cleared result
  have rate : cleared.graph.rate = transport.graph.rate := (sound.clear project).rate
  obtain ⟨after, run, -, turned⟩ := (sound.clear project).sound.scheduleProject project
  have is_result : result = (Attempt.mk after (Racks.faultOf transport.graph.rate
      (cleared.calls project))).andThen fun transport => .done (transport.followState true) := by
    simp only [result, reconcile_eq, playing, if_true, run]
    rw [← rate]
    rfl
  rw [rate] at turned
  have after_rate : after.graph.rate = transport.graph.rate := by
    rw [Graph.rate, turned.clock]
    exact rate
  refine ⟨after.graph, ?_⟩
  rw [is_result]
  cases fault : Racks.faultOf transport.graph.rate (cleared.calls project) with
  | none =>
    obtain ⟨racks, nodes, connections, same_rate⟩ := after.followState_playing
    have after_sound : after.Sound := turned.sound
    refine ⟨rfl, after_sound.followState true, same_rate.trans after_rate, nodes, connections, ?_⟩
    show Racks.Turned _ _ _ _ (after.followState true).racks.find? _
    rw [racks]
    exact turned
  | some fault => exact ⟨rfl, turned.sound, after_rate, rfl, rfl, turned⟩

/-- To reconcile keeps racks and graph in step. -/
theorem Sound.reconcile (sound : transport.Sound) (project : Project τ) :
    (transport.reconcile project).state.Sound := by
  by_cases playing : project.playing = true
  · obtain ⟨_, -, sound, -⟩ := sound.reconcile_playing playing
    exact sound
  · rw [reconcile_eq, if_neg playing]
    exact (sound.clear project).sound.followState project.playing

theorem Sound.perform (sound : transport.Sound) (operation : Operation τ) :
    (transport.perform operation).Sound := by
  cases operation with
  | play => exact sound.play
  | pause => exact sound.pause
  | reset => exact sound.reset
  | seek position => exact sound
  | reconcile project => exact sound.reconcile project
  | render frames =>
    show Transport.Sound (match transport.render frames with
      | .ok (_, after) => after
      | .error _ => transport)
    split
    · rename_i rendered
      exact sound.render rendered
    · exact sound

theorem Sound.rate_reconcile (sound : transport.Sound) (project : Project τ) :
    (transport.reconcile project).state.graph.rate = transport.graph.rate := by
  by_cases playing : project.playing = true
  · obtain ⟨_, -, -, rate, -⟩ := sound.reconcile_playing playing
    exact rate
  · have cleared := sound.clear project
    rw [reconcile_eq, if_neg playing, Attempt.done_andThen]
    unfold Transport.followState
    split
    · contradiction
    · obtain ⟨-, clock, -⟩ := cleared.sound.pause.freeWhere fun _ => true
      show Graph.rate (Transport.freeWhere _ _).graph = _
      rw [Graph.rate, clock]
      exact (steady_pause _).rate.trans cleared.rate
    · exact cleared.rate

theorem Sound.rate_perform (sound : transport.Sound) (operation : Operation τ) :
    (transport.perform operation).graph.rate = transport.graph.rate := by
  cases operation with
  | play => exact transport.steady_play.rate
  | pause => exact transport.steady_pause.rate
  | reset => exact transport.steady_reset.rate
  | seek position => rfl
  | reconcile project => exact sound.rate_reconcile project
  | render frames =>
    show Graph.rate (match transport.render frames with
      | .ok (_, after) => after
      | .error _ => transport).graph = _
    split
    · rename_i rendered
      simp only [Transport.render, Fault.bind_ok_iff] at rendered
      obtain ⟨⟨samples, graph⟩, rendered, same⟩ := rendered
      cases same
      exact (Graph.elapsed_render rendered).rate
    · rfl

/-- Through every history, racks and graph stay in step, at one sample rate. -/
theorem Sound.foldl (sound : transport.Sound) (operations : List (Operation τ)) :
    (operations.foldl Transport.perform transport).Sound ∧
      (operations.foldl Transport.perform transport).graph.rate = transport.graph.rate := by
  induction operations generalizing transport with
  | nil => exact ⟨sound, rfl⟩
  | cons operation rest ih =>
    obtain ⟨last, rate⟩ := ih (sound.perform operation)
    exact ⟨last, rate.trans (sound.rate_perform operation)⟩

theorem sound_after (settings : Settings) (operations : List (Operation τ)) :
    (after settings operations).Sound ∧
      (after settings operations).graph.rate = settings.sampleRate :=
  (sound_create settings).foldl operations

end Patchbay.Transport
