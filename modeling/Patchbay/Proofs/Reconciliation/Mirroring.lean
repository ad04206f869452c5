import Patchbay.Proofs.Reconciliation.Renaming

/-!
# One project in two graphs

Two graphs in which the same project is laid out with the same voices differ in nothing but the keys
of its nodes.
-/
namespace Patchbay

variable {τ : Type} [Fourier]

/-! ### Alike up to keys -/

/-- Nodes are the same. Generators may have been given other waves of the same timbre. -/
def Node.Alike (rate : Float32) : Node τ → Node τ → Prop
  | .generator g, .generator g' => (∃ timbre, g.Plays rate timbre ∧ g'.Plays rate timbre) ∧
      g.frequency = g'.frequency ∧ g.starts = g'.starts ∧ g.stops = g'.stops
  | node, node' => node = node'

theorem Component.Shown.alike {rate : Float32} {component : Component τ} {node node' : Node τ}
    (shown : component.Shown rate node) (shown' : component.Shown rate node') :
    node.Alike rate node' := by
  cases component with
  | generator timbre frequency starts stops =>
    obtain ⟨g, rfl, plays, frequency, starts, stops⟩ := shown
    obtain ⟨g', rfl, plays', frequency', starts', stops'⟩ := shown'
    exact ⟨⟨timbre, plays, plays'⟩, frequency.trans frequency'.symm, starts.trans starts'.symm,
      stops.trans stops'.symm⟩
  | gain factor =>
    obtain rfl : node = .gain factor := shown
    obtain rfl : node' = .gain factor := shown'
    rfl

/-- Rings are the same under other keys. The waves that they keep play no part. -/
structure RingOscillator.Alike (rename : NodeKey → NodeKey) (ring ring' : RingOscillator) : Prop where
  partials : ring'.oscillator.partials = ring.oscillator.partials
  follows : ring'.oscillator.followsNote = ring.oscillator.followsNote
  signals : ring'.signals = ring.signals
  weights : ring'.weights = ring.weights
  output : ring'.oscillator.output = rename ring.oscillator.output
  control : ring'.oscillator.control = rename ring.oscillator.control
  nodes : ring'.oscillator.nodes = ring.oscillator.nodes.map rename
  generators : ring'.oscillator.generators = ring.oscillator.generators.map rename

namespace Transport

/-- The instruments of a project are the same in two transports, up to a renaming of their nodes. -/
structure Mirrors (rename : NodeKey → NodeKey) (project : Project τ) (fresh live : Transport τ) :
    Prop where
  destination : rename Graph.destination = Graph.destination
  injective : ∀ key ∈ Graph.destination :: fresh.network project,
    ∀ other ∈ Graph.destination :: fresh.network project, rename key = rename other → key = other
  network : live.network project = (fresh.network project).map rename
  /-- Gains, frequency controls and generators agree. -/
  nodes : ∀ key ∈ fresh.network project, ∃ node node', fresh.graph.node? key = some node ∧
    live.graph.node? (rename key) = some node' ∧ node.Alike fresh.graph.rate node'
  oscillators : ∀ name instrument, project.instruments.find? name = some instrument →
    ∀ id, instrument.oscillators.contains id → ∃ ring ring', fresh.ring? name id = some ring ∧
      live.ring? name id = some ring' ∧ ring.Alike rename ring'
  gains : ∀ name instrument, project.instruments.find? name = some instrument →
    ∀ id, instrument.gains.contains id → ∃ stage stage',
      Racks.stage? fresh.racks.find? name id = some stage ∧
      Racks.stage? live.racks.find? name id = some stage' ∧ stage'.key = rename stage.key ∧
      stage'.factor = stage.factor
  /-- Whatever is connected to the instruments is connected in the same order. -/
  wiring : live.wiring project = (fresh.wiring project).map (Connection.map rename)
  within : ∀ c ∈ live.wiring project, c.source ∈ live.network project ∧
    (c.target = Graph.destination ∨ c.target ∈ live.network project)
  generators : ∀ key, live.graph.kind? key = some .generator → key ∈ live.network project

/-! ### The renaming -/

variable {project : Project τ} {start start' : Nat} {calls : List (Call τ)}
  {fresh live : Transport τ} {rename : NodeKey → NodeKey}

/-- What a renaming of one layout to another does to keys. -/
structure Relocates (rename : NodeKey → NodeKey) (project : Project τ) (start start' : Nat)
    (fresh live : Transport τ) : Prop where
  destination : rename Graph.destination = Graph.destination
  starts : rename start = start'
  shifts : Shifts rename start
  sites : ∀ name instrument, project.instruments.find? name = some instrument →
    ∀ site, instrument.Describes site → rename (Racks.keyAt fresh.racks.find? name site) =
      Racks.keyAt live.racks.find? name site

theorem Laid.relocates (laid : fresh.Laid project start calls) (start' : Nat)
    (live : Transport τ) : Relocates
      (relocate project.sites fresh.racks.find? live.racks.find? start start') project start start'
        fresh live where
  destination := laid.relocate_destination live.racks.find? start'
  starts := relocate_start ..
  shifts := shifts_relocate _ _ _ _ _
  sites := fun _ _ described _ listed => laid.relocate_keyAt _ start' described listed

omit [Fourier] in
/-- The keys of voices are moved. -/
theorem Relocates.placed (relocates : Relocates rename project start start' fresh live)
    (calls : List (Call τ)) : Call.placed start' calls =
      (Call.placed start calls).map fun p => (rename p.1, p.2) := by
  rw [← relocates.starts]
  exact Call.placed_shift relocates.shifts calls

omit [Fourier] in
theorem Relocates.shifts_placed (relocates : Relocates rename project start start' fresh live)
    {p : Nat × Call τ} (placed : p ∈ Call.placed start calls) : Shifts rename p.1 := by
  have first := (Call.bounds_of_mem_placed placed).1
  have shifts := relocates.shifts.add (p.1 - start)
  rwa [Nat.add_sub_cancel' first] at shifts

omit [Fourier] in
/-- The voices of an oscillator have the same nodes under other keys. -/
theorem Relocates.voices (relocates : Relocates rename project start start' fresh live)
    (calls : List (Call τ)) (name id : String) :
    (Call.voicesOf name id (Call.placed start' calls)).flatMap Call.nodesOf =
        ((Call.voicesOf name id (Call.placed start calls)).flatMap Call.nodesOf).map rename ∧
      (Call.voicesOf name id (Call.placed start' calls)).flatMap Call.generatorsOf =
        ((Call.voicesOf name id (Call.placed start calls)).flatMap Call.generatorsOf).map rename := by
  rw [← relocates.starts]
  exact Call.voices_moved relocates.shifts calls name id

/-- A described oscillator is the same under other keys. -/
theorem Laid.ring_alike (from_laid : fresh.Laid project start calls)
    (laid : live.Laid project start' calls)
    (relocates : Relocates rename project start start' fresh live) {name : String}
    {instrument : Instrument} (described : project.instruments.find? name = some instrument)
    {id : String} (listed : instrument.oscillators.contains id) :
    ∃ ring ring', fresh.ring? name id = some ring ∧ live.ring? name id = some ring' ∧
      ring.Alike rename ring' := by
  obtain ⟨partials, listed_as⟩ := Option.isSome_iff_exists.mp listed
  obtain ⟨ring, found, same_partials, signals, weights⟩ :=
    from_laid.oscillators name instrument described id partials listed_as
  obtain ⟨ring', found', same_partials', signals', weights'⟩ :=
    laid.oscillators name instrument described id partials listed_as
  obtain ⟨again, found_again, -, follows⟩ :=
    (from_laid.settled name instrument described).rings id (.inl listed)
  obtain ⟨again', found_again', -, follows'⟩ :=
    (laid.settled name instrument described).rings id (.inl listed)
  obtain rfl : ring = again := Option.some.inj (found.symm.trans found_again)
  obtain rfl : ring' = again' := Option.some.inj (found'.symm.trans found_again')
  obtain ⟨nodes, generators⟩ := from_laid.voices name id ring found
  obtain ⟨nodes', generators'⟩ := laid.voices name id ring' found'
  obtain ⟨same_nodes, same_generators⟩ := relocates.voices calls name id
  refine ⟨ring, ring', found, found', ?_⟩
  constructor
  case partials => rw [same_partials', same_partials]
  case follows => rw [follows', follows]
  case signals => rw [signals', signals]
  case weights => rw [weights', weights]
  case output =>
    have same := relocates.sites name instrument described (.output id) listed
    rw [Racks.keyAt_output found, Racks.keyAt_output found'] at same
    exact same.symm
  case control =>
    have same := relocates.sites name instrument described (.control id) listed
    rw [Racks.keyAt_control found, Racks.keyAt_control found'] at same
    exact same.symm
  case nodes => rw [nodes', nodes, same_nodes]
  case generators => rw [generators', generators, same_generators]

/-- A described gain is the same under another key. -/
theorem Laid.stage_alike (from_laid : fresh.Laid project start calls)
    (laid : live.Laid project start' calls)
    (relocates : Relocates rename project start start' fresh live) {name : String}
    {instrument : Instrument} (described : project.instruments.find? name = some instrument)
    {id : String} (listed : instrument.gains.contains id) :
    ∃ stage stage', Racks.stage? fresh.racks.find? name id = some stage ∧
      Racks.stage? live.racks.find? name id = some stage' ∧ stage'.key = rename stage.key ∧
      stage'.factor = stage.factor := by
  obtain ⟨factor, listed_as⟩ := Option.isSome_iff_exists.mp listed
  obtain ⟨stage, found, same⟩ := from_laid.gains name instrument described id factor listed_as
  obtain ⟨stage', found', same'⟩ := laid.gains name instrument described id factor listed_as
  have moved := relocates.sites name instrument described (.stage id) listed
  rw [Racks.keyAt_stage found, Racks.keyAt_stage found'] at moved
  exact ⟨stage, stage', found, found', moved.symm, same'.trans same.symm⟩

/-! ### All of it -/

theorem Laid.network_eq (from_laid : fresh.Laid project start calls)
    (laid : live.Laid project start' calls)
    (relocates : Relocates rename project start start' fresh live) :
    live.network project = (fresh.network project).map rename := by
  rw [network, network, List.map_flatMap]
  refine List.flatMap_congr fun holder mem => ?_
  obtain ⟨name, instrument, described, ⟨id, listed, rfl⟩ | ⟨id, listed, rfl⟩⟩ :=
    Project.mem_holders.mp mem
  · obtain ⟨ring, ring', found, found', alike⟩ :=
      from_laid.ring_alike laid relocates described listed
    have found : Racks.ring? fresh.racks.find? name id = some ring := found
    have found' : Racks.ring? live.racks.find? name id = some ring' := found'
    simp only [Racks.held, found, found', Option.elim, RingOscillator.keys, List.map_cons,
      alike.output, alike.control, alike.nodes]
  · obtain ⟨stage, stage', found, found', key, -⟩ :=
      from_laid.stage_alike laid relocates described listed
    simp only [Racks.held, found, found', Option.elim, List.map_cons, List.map_nil, key]

/-- The nodes of a voice are the same under other keys. -/
theorem Laid.voice_alike (from_laid : fresh.Laid project start calls)
    (laid : live.Laid project start' calls)
    (relocates : Relocates rename project start start' fresh live)
    (rate : live.graph.rate = fresh.graph.rate) {p : Nat × Call τ}
    (placed : p ∈ Call.placed start calls) {key : NodeKey} (mem : key ∈ Call.nodesOf p) :
    ∃ node node', fresh.graph.node? key = some node ∧ live.graph.node? (rename key) = some node' ∧
      node.Alike fresh.graph.rate node' := by
  obtain ⟨first, last⟩ := mem_voiceNodes.mp mem
  have within : key - p.1 < p.2.sheet.components.length := by
    rw [Sheet.length_components]
    simp only [NodeKey] at *
    omega
  have listed := List.getElem?_eq_getElem within
  have same : p.1 + (key - p.1) = key := Nat.add_sub_cancel' first
  have placed' : (rename p.1, p.2) ∈ Call.placed start' calls := by
    rw [relocates.placed calls]
    exact List.mem_map_of_mem placed
  obtain ⟨node, found, shown⟩ := from_laid.shows p placed _ _ listed
  obtain ⟨node', found', shown'⟩ := laid.shows _ placed' _ _ listed
  rw [same] at found
  rw [← relocates.shifts_placed placed, same] at found'
  exact ⟨node, node', found, found', shown.alike (rate ▸ shown')⟩

/-- The nodes of the instruments are the same under other keys. -/
theorem Laid.node_alike (from_laid : fresh.Laid project start calls)
    (laid : live.Laid project start' calls)
    (relocates : Relocates rename project start start' fresh live)
    (rate : live.graph.rate = fresh.graph.rate) {key : NodeKey}
    (mem : key ∈ fresh.network project) :
    ∃ node node', fresh.graph.node? key = some node ∧ live.graph.node? (rename key) = some node' ∧
      node.Alike fresh.graph.rate node' := by
  obtain ⟨holder, holds, held⟩ := mem_network.mp mem
  obtain ⟨name, instrument, described, ⟨id, listed, rfl⟩ | ⟨id, listed, rfl⟩⟩ :=
    Project.mem_holders.mp holds
  · obtain ⟨ring, ring', found, found', alike⟩ :=
      from_laid.ring_alike laid relocates described listed
    rcases List.mem_cons.mp ((Racks.mem_held_ring found).mp held) with rfl | later
    · refine ⟨_, _, (from_laid.sound.rings name id ring found).output, ?_, rfl⟩
      rw [← alike.output]
      exact (laid.sound.rings name id ring' found').output
    · rcases List.mem_cons.mp later with rfl | counted
      · obtain ⟨again, found_again, level, -⟩ :=
          (from_laid.settled name instrument described).rings id (.inl listed)
        obtain ⟨again', found_again', level', -⟩ :=
          (laid.settled name instrument described).rings id (.inl listed)
        obtain rfl : ring = again := Option.some.inj (found.symm.trans found_again)
        obtain rfl : ring' = again' := Option.some.inj (found'.symm.trans found_again')
        refine ⟨_, _, level, ?_, rfl⟩
        rw [← alike.control, level']
      · rw [(from_laid.voices name id ring found).1] at counted
        obtain ⟨p, voiced, inside⟩ := List.mem_flatMap.mp counted
        exact from_laid.voice_alike laid relocates rate (List.mem_filter.mp voiced).1 inside
  · obtain ⟨stage, found, level⟩ := (from_laid.settled name instrument described).stages id listed
    obtain ⟨stage', found', level'⟩ := (laid.settled name instrument described).stages id listed
    have moved := relocates.sites name instrument described (.stage id) listed
    rw [Racks.keyAt_stage found, Racks.keyAt_stage found'] at moved
    obtain rfl := (Racks.mem_held_stage found).mp held
    refine ⟨_, _, level, ?_, rfl⟩
    rw [moved, level']

/-- What is connected is the same under other keys. -/
theorem Laid.wiring_map (from_laid : fresh.Laid project start calls)
    (laid : live.Laid project start' calls)
    (relocates : Relocates rename project start start' fresh live) :
    live.wiring project = (fresh.wiring project).map (Connection.map rename) := by
  rw [laid.wiring_eq, from_laid.wiring_eq, List.map_append]
  congr 1
  · rw [boardWires, boardWires, List.map_flatMap]
    refine List.flatMap_congr fun entry mem => ?_
    obtain ⟨name, instrument⟩ := entry
    have described := Roster.find?_eq_some_iff.mpr mem
    simp only [List.map_map]
    refine List.map_congr_left fun wire listed => ?_
    obtain ⟨from_site, -, to_site⟩ :=
      instrument.within_of_mem_board (project.cablesOf name) wire listed
    simp only [Function.comp_apply, Racks.lift, Connection.map,
      relocates.sites name instrument described _ from_site,
      relocates.sites name instrument described _ to_site]
  · rw [relocates.placed calls, List.flatMap_map, List.map_flatMap]
    refine List.flatMap_congr fun p mem => ?_
    obtain ⟨instrument, described, listed⟩ := from_laid.described p.2 (Call.mem_of_mem_placed mem)
    have output := relocates.sites p.2.name instrument described (.output p.2.id) listed
    have control := relocates.sites p.2.name instrument described (.control p.2.id) listed
    simp only [Racks.keyAt] at output control
    rw [Racks.wires, Racks.wires, map_voiceWires _ _ _ (relocates.shifts_placed mem), output,
      control]

/-- Two layouts of a project with the same voices mirror each other. -/
theorem Laid.mirrors (from_laid : fresh.Laid project start calls)
    (laid : live.Laid project start' calls) (rate : live.graph.rate = fresh.graph.rate) :
    ∃ rename, Mirrors rename project fresh live := by
  obtain ⟨rename, relocates⟩ :
      ∃ rename, Relocates rename project start start' fresh live :=
    ⟨_, from_laid.relocates start' live⟩
  have network := from_laid.network_eq laid relocates
  refine ⟨rename, ?_⟩
  constructor
  case destination => exact relocates.destination
  case injective =>
    have once := laid.sound.nodup_network project
    rw [network, ← relocates.destination, ← List.map_cons] at once
    exact fun key mem other mem' same => List.inj_on_of_nodup_map once mem mem' same
  case network => exact network
  case nodes => exact fun key mem => from_laid.node_alike laid relocates rate mem
  case oscillators =>
    exact fun name instrument described id listed =>
      from_laid.ring_alike laid relocates described listed
  case gains =>
    exact fun name instrument described id listed =>
      from_laid.stage_alike laid relocates described listed
  case wiring => exact from_laid.wiring_map laid relocates
  case within => exact fun c mem => laid.within mem
  case generators => exact fun key generator => laid.generator_mem generator

end Transport

end Patchbay
