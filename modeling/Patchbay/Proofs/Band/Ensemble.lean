import Patchbay.Proofs.Band.Unison

/-!
# Transports side by side

Two transports are in unison for a band when they are at the same place and their graphs are alike
for the band. They stay in unison while the same is done to both, where projects need agree on
nothing but the instruments of the band.
-/
namespace Patchbay

variable {τ : Type} [Fourier]

/-! ### Unison -/

/-- Nodes are changed in the same way in both graphs. -/
theorem Racks.Alike.recast {band : String → Prop} {f : NodeKey → NodeKey} {racks racks' : Racks}
    {graph after graph' after' : Graph τ} (alike : Alike band f racks graph racks' graph')
    (sound : racks.Sound after) (sound' : racks'.Sound after') (clock : after'.clock = after.clock)
    (connections : after.connections = graph.connections)
    (connections' : after'.connections = graph'.connections)
    (nodes : ∀ key, racks.Holds band key →
      (after'.node? (f key)).map Node.unnumbered = (after.node? key).map Node.unnumbered) :
    Alike band f racks after racks' after' where
  sound := sound
  sound' := sound'
  clock := clock
  destination := alike.destination
  rings := alike.rings
  stages := alike.stages
  labels := alike.labels
  nodes := nodes
  wiring := by
    rw [wiring_congr (fun _ _ => rfl) connections', wiring_congr (fun _ _ => rfl) connections]
    exact alike.wiring

/-- Notes of an instrument of the band make the same calls. -/
theorem Racks.Alike.callsOf [TimeAxis τ] {band : String → Prop} {f : NodeKey → NodeKey}
    {racks racks' : Racks} {graph graph' : Graph τ} (alike : Alike band f racks graph racks' graph')
    {name : String} (member : band name) (now position : τ) (notes : List (Note τ)) :
    racks'.callsOf now position name notes = racks.callsOf now position name notes := by
  have labels := alike.labels name member
  unfold Racks.callsOf
  cases found : racks name <;> cases found' : racks' name <;>
    simp only [found, found', Option.map_none, Option.map_some, reduceCtorEq] at labels
  · rfl
  · rename_i rack rack'
    have active : rack'.active = rack.active := congrArg (·.active) (Option.some.inj labels)
    refine List.flatMap_congr fun note _ => ?_
    rw [active]
    refine List.flatMap_congr fun id _ => ?_
    have both := alike.rings name member id
    simp only [ring?, found, found', Option.bind_some] at both
    cases here : rack.oscillators.find? id <;> cases there : rack'.oscillators.find? id <;>
      rw [here, there] at both <;> cases both
    rename_i twin
    rw [Option.map_some, Option.map_some, RingOscillator.sheet_congr twin.partials twin.follows
      twin.signals twin.weights]

/-- Projects agree on whether they are to be played and on the instruments of a band. -/
structure Project.AgreesOn (band : String → Prop) (project other : Project τ) : Prop where
  playing : other.playing = project.playing
  instruments : ∀ name, band name → other.instruments.find? name = project.instruments.find? name
  cables : ∀ name, band name → other.cablesOf name = project.cablesOf name
  notes : ∀ name, band name → other.notesOf name = project.notesOf name

omit [Fourier] in
theorem Project.AgreesOn.refl (band : String → Prop) (project : Project τ) :
    project.AgreesOn band project :=
  ⟨rfl, fun _ _ => rfl, fun _ _ => rfl, fun _ _ => rfl⟩

namespace Transport

/-- Transports are at the same place, with graphs that are alike for a band. -/
structure Unison (band : String → Prop) (transport other : Transport τ) : Prop where
  alike : ∃ f, Racks.Alike band f transport.racks.find? transport.graph other.racks.find? other.graph
  state : other.state = transport.state
  location : other.location = transport.location

variable {band : String → Prop} {transport other next : Transport τ} {name : String}

theorem Sound.beside_equip (sound : transport.Sound) (outside : ¬ band name)
    (instrument : Instrument) (cables : List Cable) :
    let next := transport.equip name instrument cables
    Racks.Beside band transport.racks.find? transport.graph next.racks.find? next.graph := by
  intro next
  have racks : next.racks.find? = Racks.set transport.racks.find? name
      (Racks.equip transport.racks.find? transport.graph name instrument cables).1 :=
    Racks.find?_insert ..
  rw [racks]
  exact Racks.Sound.beside_equip sound outside instrument cables

namespace Unison

theorem sound (unison : Unison band transport other) : transport.Sound := by
  obtain ⟨f, alike⟩ := unison.alike
  exact alike.sound

theorem sound' (unison : Unison band transport other) : other.Sound := by
  obtain ⟨f, alike⟩ := unison.alike
  exact alike.sound'

theorem clock (unison : Unison band transport other) :
    other.graph.clock = transport.graph.clock := by
  obtain ⟨f, alike⟩ := unison.alike
  exact alike.clock

theorem rate (unison : Unison band transport other) : other.graph.rate = transport.graph.rate :=
  congrArg Clock.rate unison.clock

/-- What is not seen in the one transport leaves it like the other. -/
theorem left (unison : Unison band transport other) (beside : Racks.Beside band
      transport.racks.find? transport.graph next.racks.find? next.graph)
    (state : next.state = transport.state) (location : next.location = transport.location) :
    Unison band next other := by
  obtain ⟨f, alike⟩ := unison.alike
  exact ⟨⟨f, alike.left beside⟩, unison.state.trans state.symm, unison.location.trans location.symm⟩

theorem right (unison : Unison band transport other) (beside : Racks.Beside band
      other.racks.find? other.graph next.racks.find? next.graph)
    (state : next.state = other.state) (location : next.location = other.location) :
    Unison band transport next := by
  obtain ⟨f, alike⟩ := unison.alike
  exact ⟨⟨f, alike.right beside⟩, state.trans unison.state, location.trans unison.location⟩

/-! ### Equipping -/

theorem equip (unison : Unison band transport other) (member : band name) (instrument : Instrument)
    (cables : List Cable) : Unison band (transport.equip name instrument cables)
      (other.equip name instrument cables) := by
  obtain ⟨f, alike⟩ := unison.alike
  obtain ⟨g, next⟩ := alike.equip member instrument cables
  rw [← Racks.find?_insert, ← Racks.find?_insert] at next
  exact ⟨⟨g, next⟩, unison.state, unison.location⟩

/-- All instruments of two projects are equipped. -/
theorem equipAll (unison : Unison band transport other) {project project' : Project τ}
    (agrees : project.AgreesOn band project') :
    Unison band (transport.equipAll project) (other.equipAll project') := by
  obtain ⟨last, last', run, run', unison⟩ := Attempt.visit_pair
    (fun (transport : Transport τ) (entry : String × Instrument) =>
      .done (transport.equip entry.1 entry.2 (project.cablesOf entry.1)))
    (fun (other : Transport τ) (entry : String × Instrument) =>
      .done (other.equip entry.1 entry.2 (project'.cablesOf entry.1))) (Unison band)
    (fun entry member transport other unison => ⟨_, _, rfl, rfl, by
      rw [agrees.cables entry.1 member]
      exact unison.equip member _ _⟩)
    (fun entry outside transport other unison => ⟨_, rfl,
      unison.left (unison.sound.beside_equip outside _ _) rfl rfl⟩)
    (fun entry outside transport other unison => ⟨_, rfl,
      unison.right (unison.sound'.beside_equip outside _ _) rfl rfl⟩)
    (Roster.filter_entries_congr agrees.instruments) unison
  rw [Attempt.visit_done] at run run'
  cases run
  cases run'
  exact unison

/-! ### Voices -/

variable [TimeAxis τ]

omit [TimeAxis τ] in
/-- Both transports have the same racks of the band. -/
theorem known_iff (unison : Unison band transport other) (member : band name) :
    name ∈ other.racks.names ↔ name ∈ transport.racks.names := by
  obtain ⟨f, alike⟩ := unison.alike
  have labels := congrArg Option.isSome (alike.labels name member)
  rw [Option.isSome_map, Option.isSome_map] at labels
  rw [← Roster.contains_iff_mem_names, ← Roster.contains_iff_mem_names, Roster.contains,
    Roster.contains, labels]

/-- Voices of the same instruments of the band are freed. -/
theorem freeWhere (unison : Unison band transport other) {which which' : String → Bool}
    (same : ∀ name, band name → which' name = which name) :
    Unison band (transport.freeWhere which) (other.freeWhere which') := by
  obtain ⟨f, alike⟩ := unison.alike
  refine ⟨⟨_, alike.turn (unison.sound.turned_freeWhere which)
    (unison.sound'.turned_freeWhere which') (fun name member => ?_) (by simp)⟩, unison.state,
    unison.location⟩
  rw [List.mem_filter, List.mem_filter, unison.known_iff member, same name member]

/-- After that, both are cleared. -/
theorem cleared (unison : Unison band transport other) {project project' : Project τ}
    (agrees : project.AgreesOn band project') :
    Unison band (transport.cleared project) (other.cleared project') := by
  refine (unison.equipAll agrees).freeWhere fun name member => ?_
  rw [Roster.contains, Roster.contains, agrees.instruments name member]

theorem now (unison : Unison band transport other) : other.now = transport.now := by
  simp only [Transport.now, Graph.now, unison.clock]

theorem position (unison : Unison band transport other) : other.position = transport.position := by
  simp only [Transport.position, unison.now, unison.location]

/-- Notes of an instrument are scheduled in both transports. -/
theorem scheduleNotes (unison : Unison band transport other) (member : band name)
    (fits : binCount transport.graph.rate ≤ Partials.maxBins) (position : τ)
    (notes : List (Note τ)) :
    ∃ next next', Transport.scheduleNotes position transport name notes = .done next ∧
      Transport.scheduleNotes position other name notes = .done next' ∧ Unison band next next' ∧
      next.graph.rate = transport.graph.rate := by
  obtain ⟨f, alike⟩ := unison.alike
  obtain ⟨next, run, same, turned⟩ := unison.sound.scheduleNotes fits position name notes
  obtain ⟨next', run', same', turned'⟩ :=
    unison.sound'.scheduleNotes (unison.rate ▸ fits) position name notes
  rw [unison.now, alike.callsOf member] at turned'
  refine ⟨next, next', run, run', ⟨⟨_, alike.turn turned turned' (fun _ _ => Iff.rfl)
    fun call called => ?_⟩, ?_, ?_⟩, congrArg Clock.rate turned.clock⟩
  · rw [(of_mem_callsOf called).1]
    exact member
  · rw [same, same']
    exact unison.state
  · rw [same, same']
    exact unison.location

end Unison

/-- Notes of an instrument outside of the band are scheduled. -/
theorem Sound.beside_scheduleNotes [TimeAxis τ] (sound : transport.Sound) (outside : ¬ band name)
    (fits : binCount transport.graph.rate ≤ Partials.maxBins) (position : τ)
    (notes : List (Note τ)) :
    ∃ next, Transport.scheduleNotes position transport name notes = .done next ∧
      Racks.Beside band transport.racks.find? transport.graph next.racks.find? next.graph ∧
      next.state = transport.state ∧ next.location = transport.location := by
  obtain ⟨next, run, same, turned⟩ := sound.scheduleNotes fits position name notes
  refine ⟨next, run, Racks.Sound.beside_turned sound turned fun other listed => ?_, ?_, ?_⟩
  · rwa [List.mem_singleton.mp listed]
  · rw [same]
  · rw [same]

namespace Unison

variable [TimeAxis τ]

/-- The notes of two projects are scheduled. -/
theorem scheduleProject (unison : Unison band transport other) {project project' : Project τ}
    (agrees : project.AgreesOn band project')
    (fits : binCount transport.graph.rate ≤ Partials.maxBins) :
    ∃ next next', transport.scheduleProject project = .done next ∧
      other.scheduleProject project' = .done next' ∧ Unison band next next' := by
  obtain ⟨last, last', run, run', last_unison, -⟩ := Attempt.visit_pair
    (fun next name => Transport.scheduleNotes transport.position next name (project.notesOf name))
    (fun next name => Transport.scheduleNotes transport.position next name (project'.notesOf name))
    (fun next next' => Unison band next next' ∧ next.graph.rate = transport.graph.rate)
    (fun name member next next' ⟨unison, rate⟩ => by
      obtain ⟨last, last', run, run', unison, same⟩ := unison.scheduleNotes member
        (rate ▸ fits) transport.position (project.notesOf name)
      exact ⟨last, last', run, by rw [agrees.notes name member, run'], unison, same.trans rate⟩)
    (fun name outside next next' ⟨unison, rate⟩ => by
      obtain ⟨last, run, beside, state, location⟩ := unison.sound.beside_scheduleNotes outside
        (rate ▸ fits) transport.position (project.notesOf name)
      exact ⟨last, run, unison.left beside state location,
        (congrArg Clock.rate beside.clock).trans rate⟩)
    (fun name outside next next' ⟨unison, rate⟩ => by
      obtain ⟨last, run, beside, state, location⟩ := unison.sound'.beside_scheduleNotes outside
        (unison.rate ▸ rate ▸ fits) transport.position (project'.notesOf name)
      exact ⟨last, run, unison.right beside state location, rate⟩)
    (Roster.filter_names_congr agrees.instruments) ⟨unison, rfl⟩
  obtain ⟨f, alike⟩ := last_unison.alike
  let told (next : Transport τ) : Transport τ :=
    { next with graph := next.graph.log (.notesScheduled transport.position next.graph.nodeCount) }
  refine ⟨told last, told last', ?_, ?_, ⟨⟨f, alike.reported (Graph.reported_log _ _)
    (Graph.reported_log _ _)⟩, last_unison.state, last_unison.location⟩⟩
  · simp only [Transport.scheduleProject, run, Attempt.done_andThen]
    rfl
  · simp only [Transport.scheduleProject, unison.position, run', Attempt.done_andThen]
    rfl

/-! ### Playing, pausing, resetting and seeking -/

theorem play (unison : Unison band transport other) : Unison band transport.play other.play := by
  have sound := unison.sound.play
  have sound' := unison.sound'.play
  unfold Transport.Sound at sound sound'
  unfold Transport.play at sound sound' ⊢
  rw [unison.state] at sound' ⊢
  cases state : transport.state with
  | playing => exact unison
  | stopped =>
    rw [state] at sound sound'
    obtain ⟨f, alike⟩ := unison.alike
    exact ⟨⟨f, alike.recast sound sound' (congrArg Clock.resume alike.clock) rfl rfl alike.nodes⟩,
      rfl, unison.location⟩

theorem pause (unison : Unison band transport other) : Unison band transport.pause other.pause := by
  have sound := unison.sound.pause
  have sound' := unison.sound'.pause
  unfold Transport.Sound at sound sound'
  unfold Transport.pause at sound sound' ⊢
  rw [unison.state] at sound' ⊢
  cases state : transport.state with
  | stopped => exact unison
  | playing =>
    rw [state] at sound sound'
    obtain ⟨f, alike⟩ := unison.alike
    exact ⟨⟨f, alike.recast sound sound' (congrArg Clock.suspend alike.clock) rfl rfl alike.nodes⟩,
      rfl, unison.location⟩

theorem seek (unison : Unison band transport other) (position : τ) :
    Unison band (transport.seek position) (other.seek position) where
  alike := unison.alike
  state := unison.state
  location := by simp only [Transport.seek, unison.now]

theorem followState (unison : Unison band transport other) (playing : Bool) :
    Unison band (transport.followState playing) (other.followState playing) := by
  unfold Transport.followState
  rw [unison.state]
  split
  · exact unison.play
  · exact unison.pause.freeWhere fun _ _ => rfl
  · exact unison

end Unison

/-- The same generators of the band are silenced. -/
theorem mem_generators_alike {f : NodeKey → NodeKey} (alike : Racks.Alike band f
      transport.racks.find? transport.graph other.racks.find? other.graph) {key : NodeKey}
    (held : Racks.Holds transport.racks.find? band key) :
    f key ∈ other.generators ↔ key ∈ transport.generators := by
  have within {racks : Racks} {graph : Graph τ} (sound : racks.Sound graph) (name id : String)
      (ring : RingOscillator) (found : racks.ring? name id = some ring) :
      ring.oscillator.generators ⊆ ring.keys := fun _ mem =>
    RingOscillator.mem_keys_of_counted ((sound.rings name id ring found).generators.subset mem)
  have same := alike.mem_part (·.oscillator.generators) (fun _ _ twin => twin.generators)
    (within alike.sound) (within alike.sound') (fun name _ => Iff.rfl (a := True)) held
  simpa only [mem_generators, true_and] using same

namespace Unison

variable [TimeAxis τ]

theorem reset (unison : Unison band transport other) :
    Unison band transport.reset other.reset := by
  obtain ⟨f, alike⟩ := unison.alike
  obtain ⟨clock, connections, nodes⟩ := transport.graph_reset
  obtain ⟨clock', connections', nodes'⟩ := other.graph_reset
  refine ⟨⟨f, alike.recast unison.sound.reset unison.sound'.reset ?_ connections connections' ?_⟩,
    unison.state, ?_⟩
  · rw [clock', clock, alike.clock]
  · intro key held
    have same := mem_generators_alike alike held
    have before := alike.nodes key held
    rw [nodes, nodes']
    by_cases silenced : key ∈ transport.generators
    · rw [if_pos silenced, if_pos (same.mpr silenced), Option.map_map, Option.map_map]
      -- to arm a stop has nothing to do with the number of a wave
      have armed : (Node.unnumbered ∘ Node.mapGenerator fun generator : Generator τ =>
          { generator with stops := some 0 }) = (Node.mapGenerator fun generator : Generator τ =>
            { generator with stops := some 0 }) ∘ Node.unnumbered := by
        funext node
        cases node <;> rfl
      rw [armed, ← Option.map_map, before, Option.map_map]
    · rw [if_neg silenced, if_neg (mt same.mp silenced)]
      exact before
  · have halted : other.reset.graph.now = (transport.reset.graph.now : τ) := by
      simp only [Graph.now, clock', clock, alike.clock]
    exact halted

/-- Two projects are reconciled with, and no fault comes up. -/
theorem reconcile (unison : Unison band transport other) {project project' : Project τ}
    (agrees : project.AgreesOn band project')
    (fits : binCount transport.graph.rate ≤ Partials.maxBins) :
    ∃ next next', transport.reconcile project = .done next ∧
      other.reconcile project' = .done next' ∧ Unison band next next' := by
  have cleared := unison.cleared agrees
  rw [reconcile_eq, reconcile_eq, agrees.playing]
  by_cases playing : project.playing = true
  · have rate := (unison.sound.clear project).rate
    obtain ⟨next, next', run, run', scheduled⟩ := cleared.scheduleProject agrees (rate ▸ fits)
    rw [if_pos playing, if_pos playing, run, run']
    exact ⟨_, _, rfl, rfl, scheduled.followState _⟩
  · rw [if_neg playing, if_neg playing]
    exact ⟨_, _, rfl, rfl, cleared.followState _⟩

end Unison

end Transport

end Patchbay
