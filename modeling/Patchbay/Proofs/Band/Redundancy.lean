import Patchbay.Project.Demo
import Patchbay.Proofs.Band.Hearing
import Patchbay.Proofs.Reconciliation.Revoicing

/-!
# To reconcile again

A project that a transport has been reconciled with finds everything in place when it comes again.
Instruments stay equipped, and their connections come last as before. Voices that are played anew
get other keys, but they are the same voices, wired in the same order. So nothing is heard of it.
-/
namespace Patchbay

variable {τ : Type}

theorem RingOscillator.Twin.refl (ring : RingOscillator) : ring.Twin id ring where
  partials := rfl
  follows := rfl
  signals := rfl
  weights := rfl
  output := rfl
  control := rfl
  nodes := (List.map_id _).symm
  generators := (List.map_id _).symm
  memory := rfl

namespace Racks

variable [Fourier] {band : String → Prop} {racks next : Racks} {graph after : Graph τ}
  {names : List String}
  {calls : List (Call τ)} {project : Project τ}

/-- Graphs with the same nodes and connections are alike under the same keys. -/
theorem Sound.alike_id (sound : racks.Sound graph) (sound' : racks.Sound after)
    (clock : after.clock = graph.clock) (nodes : ∀ key, after.node? key = graph.node? key)
    (connections : after.connections = graph.connections) :
    Alike band id racks graph racks after where
  sound := sound
  sound' := sound'
  clock := clock
  destination := rfl
  rings := by
    intro name _ id
    cases racks.ring? name id with
    | none => exact .none
    | some ring => exact .some (.refl ring)
  stages := by
    intro name _ id
    cases racks.stage? name id <;> rfl
  labels := fun _ _ => rfl
  nodes := fun key _ => congrArg _ (nodes key)
  wiring := by
    rw [wiring_congr (fun _ _ => rfl) connections]
    exact (List.map_id _).symm

/-! ### Cables that are plugged in -/

/-- The connections of a project's boards are pulled out with its cables. -/
theorem Sound.filter_plugged (sound : racks.Sound graph) (cables : String → List Cable)
    (names : List String) : (racks.plugged cables names).filter (racks.spared names) = [] := by
  refine List.filter_eq_nil_iff.mpr fun c mem all => ?_
  obtain ⟨name, listed, wired⟩ := List.mem_flatMap.mp mem
  cases found : racks name with
  | none =>
    rw [found] at wired
    cases wired
  | some rack =>
    rw [found, Option.elim_some] at wired
    obtain ⟨-, -, pulled, -⟩ := sound.ends_of_wire found wired
    have spared := List.all_eq_true.mp all name listed
    rw [found, Option.all_some, pulled] at spared
    cases spared

/-- Voices have no part in them. -/
theorem Sound.plugged_apart (sound : racks.Sound graph) (cables : String → List Cable)
    (names more : List String) : (racks.plugged cables names).filter
      (fun c => c.source ∉ racks.voices more ∧ c.target ∉ racks.voices more) =
        racks.plugged cables names := by
  refine List.filter_eq_self.mpr fun c mem => ?_
  obtain ⟨name, -, wired⟩ := List.mem_flatMap.mp mem
  cases found : racks name with
  | none =>
    rw [found] at wired
    cases wired
  | some rack =>
    rw [found, Option.elim_some] at wired
    obtain ⟨-, -, -, apart⟩ := sound.ends_of_wire found wired
    exact decide_eq_true (apart more)

/-- To pull out the cables of a project and to plug them in again changes nothing. -/
def Plugged (racks : Racks) (graph : Graph τ) (project : Project τ) : Prop :=
  graph.connections.filter (racks.spared project.instruments.names) ++
    racks.plugged project.cablesOf project.instruments.names = graph.connections

/-- This stays so when voices are given up. -/
theorem Turned.plugged_of_freed (freed : Turned racks graph names ([] : List (Call τ)) next after)
    (sound : racks.Sound graph) (plugged : racks.Plugged graph project) :
    next.Plugged after project := by
  unfold Plugged at plugged ⊢
  rw [freed.revoiced.spared, freed.revoiced.plugged, freed.freed_connections, List.filter_comm,
    ← sound.plugged_apart project.cablesOf project.instruments.names names, ← List.filter_append,
    plugged]

/-- The instruments of a project stand as it asks for, and all others are silent. -/
structure Tidy (racks : Racks) (graph : Graph τ) (project : Project τ) : Prop where
  sound : racks.Sound graph
  equips : racks.Equips graph project
  silent : ∀ name id ring, project.instruments.contains name = false →
    racks.ring? name id = some ring → ring.oscillator.nodes = [] ∧ ring.oscillator.generators = []

/-- This stays so when instruments of the project play. -/
theorem Turned.tidy (turned : Turned racks graph names calls next after)
    (tidy : racks.Tidy graph project)
    (known : ∀ call ∈ calls, project.instruments.contains call.name) : next.Tidy after project where
  sound := turned.sound
  equips := turned.equips tidy.sound tidy.equips
  silent := by
    intro name id ring' unknown found'
    obtain ⟨ring, found, nodes, generators⟩ := turned.ring_back found'
    obtain ⟨no_nodes, no_generators⟩ := tidy.silent name id ring unknown found
    have unasked : Call.voicesOf name id (Call.placed graph.nodes.size calls) = [] := by
      refine List.filter_eq_nil_iff.mpr fun p mem asked => ?_
      obtain ⟨rfl, -⟩ := of_decide_eq_true asked
      rw [known p.2 (Call.mem_of_mem_placed mem)] at unknown
      cases unknown
    rw [nodes, generators, no_nodes, no_generators, unasked, ite_self]
    exact ⟨rfl, rfl⟩

/-- It hangs on the nodes of the graph alone. -/
theorem Tidy.congr (tidy : racks.Tidy graph project) (sound : racks.Sound after)
    (nodes : ∀ key, after.node? key = graph.node? key) : racks.Tidy after project where
  sound := sound
  equips := by
    intro name instrument described
    obtain ⟨rack, found, equipped⟩ := tidy.equips name instrument described
    exact ⟨rack, found, equipped.congr fun key _ => nodes key⟩
  silent := tidy.silent

/-- A pass is made again: its voices are given up, and the same calls are played in place of them.
The voices that come of it are the same under other keys. -/
theorem Turned.again {quiet quiet' next' : Racks} {once twice quieted graph' quieted' : Graph τ}
    (turned : Turned racks graph names calls next after) (sound : racks.Sound graph)
    (freed : Turned racks graph names ([] : List (Call τ)) quiet quieted)
    (once_sound : next.Sound once) (once_nodes : once.nodes = after.nodes)
    (once_connections : once.connections = after.connections) (once_rate : once.rate = after.rate)
    (turned' : Turned next graph' names calls next' twice)
    (freed' : Turned next graph' names ([] : List (Call τ)) quiet' quieted')
    (clock : graph'.clock = once.clock) (nodes : ∀ key, graph'.node? key = once.node? key)
    (connections : quieted'.connections = quieted.connections) :
    Alike (fun _ => True) (extend id graph.nodes.size graph'.nodes.size) next once next' twice := by
  obtain ⟨start, is_start⟩ : ∃ start, start = { quieted with clock := once.clock } := ⟨_, rfl⟩
  have start_clock : start.clock = once.clock := by rw [is_start]
  have start_nodes (key : NodeKey) : start.node? key = quieted.node? key := by rw [is_start]; rfl
  have start_connections : start.connections = quieted.connections := by rw [is_start]
  have start_size : start.nodes.size = graph.nodes.size := by rw [is_start]; exact freed.size
  have quiet_size : quieted'.nodes.size = graph'.nodes.size := freed'.size
  have rate : start.rate = graph.rate := by
    rw [Graph.rate, start_clock]
    exact once_rate.trans (congrArg Clock.rate turned.clock)
  -- both passes start from the same nodes and connections
  have same_nodes (key : NodeKey) : quieted'.node? key = start.node? key := by
    have undone := turned.undone_nodes sound key
    rw [start_nodes, freed'.freed_nodes, freed.freed_nodes, nodes, ← undone, Graph.node?, once_nodes,
      Graph.node?]
  have same_connections : quieted'.connections = start.connections :=
    connections.trans start_connections.symm
  have same_clock : quieted'.clock = start.clock :=
    (freed'.clock.trans clock).trans start_clock.symm
  have start_sound : quiet'.Sound start := by
    refine freed'.sound.steady ⟨fun key => ?_, fun key factor found => ?_, same_connections.symm, ?_,
      fun _ => ?_⟩
    · rw [Graph.kind?, Graph.kind?, same_nodes]
    · rw [← same_nodes, found]
    · rw [Graph.rate, Graph.rate, same_clock]
    · subst is_start
      exact ⟨freed.sound.wellFormed.admitted, freed.sound.wellFormed.distinct,
        freed.sound.wellFormed.destined, freed.sound.wellFormed.buffered,
        freed.sound.wellFormed.planned⟩
  have first : Turned quiet' start names calls next once :=
    turned.replay (turned.hushed_after freed') rate start_size
      (fun key => (start_nodes key).trans (freed.freed_nodes key))
      (start_connections.trans freed.freed_connections) once_sound start_clock.symm once_nodes
      once_connections
  have second : Turned quiet' quieted' names calls next' twice :=
    turned'.replay (freed'.hushed _ calls) (congrArg Clock.rate freed'.clock) quiet_size
      freed'.freed_nodes freed'.freed_connections turned'.sound
      (turned'.clock.trans freed'.clock.symm) rfl rfl
  have alike : Alike (fun _ => True) id quiet' start quiet' quieted' :=
    start_sound.alike_id freed'.sound same_clock same_nodes same_connections
  rw [← start_size, ← quiet_size]
  exact alike.turn first second (fun _ _ => Iff.rfl) fun _ _ => trivial

/-- If cables are pulled out and plugged in between, the connections are the same without voices. -/
theorem Turned.connections_again {quiet quiet' : Racks} {quieted graph' quieted' : Graph τ}
    (turned : Turned racks graph names calls next after) (sound : racks.Sound graph)
    (freed : Turned racks graph names ([] : List (Call τ)) quiet quieted)
    (plugged : racks.Plugged graph project)
    (connections : graph'.connections =
      after.connections.filter (next.spared project.instruments.names) ++
        next.plugged project.cablesOf project.instruments.names)
    (freed' : Turned next graph' names ([] : List (Call τ)) quiet' quieted') :
    quieted'.connections = quieted.connections := by
  have still := freed.plugged_of_freed sound plugged
  unfold Plugged at still
  rw [freed'.freed_connections, connections, List.filter_append, turned.sound.plugged_apart,
    List.filter_comm, turned.undone_connections sound, ← freed.freed_connections,
    turned.revoiced.spared, turned.revoiced.plugged, ← freed.revoiced.spared,
    ← freed.revoiced.plugged, still]

end Racks

namespace Transport

variable [Fourier] {transport : Transport τ} {project : Project τ}

/-! ### To clear again -/

/-- To free racks without voices changes nothing. -/
theorem Sound.freeWhere_silent [TimeAxis τ] (sound : transport.Sound) {which : String → Bool}
    (silent : ∀ name id ring, which name = true →
      Racks.ring? transport.racks.find? name id = some ring →
        ring.oscillator.nodes = [] ∧ ring.oscillator.generators = []) :
    (transport.freeWhere which).racks.find? = transport.racks.find? ∧
      (transport.freeWhere which).graph.connections = transport.graph.connections ∧
      ∀ key, (transport.freeWhere which).graph.node? key = transport.graph.node? key := by
  obtain ⟨-, -, -, connections, nodes⟩ := sound.freeWhere which
  have none_counted (key : NodeKey) : key ∉ transport.voicesWhere which := by
    intro mem
    obtain ⟨name, id, ring, asked, found, counted⟩ := mem_voicesWhere.mp mem
    rw [(silent name id ring asked found).1] at counted
    cases counted
  refine ⟨funext fun name => ?_, ?_, fun key => ?_⟩
  · rw [find?_freeWhere]
    cases found : transport.racks.find? name with
    | none => rfl
    | some rack =>
      rw [Option.map_some]
      split
      · rename_i asked
        rw [Rack.free_eq_self fun id ring here =>
          silent name id ring asked (by rw [Racks.ring?, found]; exact here)]
      · rfl
  · rw [connections]
    exact List.filter_eq_self.mpr fun c _ => decide_eq_true ⟨none_counted _, none_counted _⟩
  · rw [nodes, if_neg (none_counted key)]

variable [TimeAxis τ]

/-- Where a project finds everything in place, to clear for it pulls out its cables and plugs them
in again, and does nothing else. -/
theorem cleared_again (tidy : Racks.Tidy transport.racks.find? transport.graph project) :
    (transport.cleared project).racks.find? = transport.racks.find? ∧
      (∀ key, (transport.cleared project).graph.node? key = transport.graph.node? key) ∧
      (transport.cleared project).graph.connections =
        transport.graph.connections.filter
            (Racks.spared transport.racks.find? project.instruments.names) ++
          Racks.plugged transport.racks.find? project.cablesOf project.instruments.names := by
  have sound : transport.Sound := tidy.sound
  obtain ⟨racks, nodes, connections⟩ := sound.equipAll_again tidy.equips
  obtain ⟨after_sound, -⟩ := sound.equips_equipAll project
  have racks : (transport.equipAll project).racks.find? = transport.racks.find? := racks
  have silent (name id : String) (ring : RingOscillator)
      (unknown : (!project.instruments.contains name) = true)
      (found : Racks.ring? (transport.equipAll project).racks.find? name id = some ring) :
      ring.oscillator.nodes = [] ∧ ring.oscillator.generators = [] :=
    tidy.silent name id ring (by simpa using unknown) (racks ▸ found)
  obtain ⟨racks', connections', nodes'⟩ := after_sound.freeWhere_silent silent
  exact ⟨racks'.trans racks, fun key => (nodes' key).trans (nodes key),
    connections'.trans connections⟩

/-- Once cleared for a project, everything is in place for it. -/
theorem Sound.tidy_cleared (sound : transport.Sound) (project : Project τ) :
    Racks.Tidy (transport.cleared project).racks.find? (transport.cleared project).graph project ∧
      Racks.Plugged (transport.cleared project).racks.find? (transport.cleared project).graph
        project := by
  obtain ⟨equipped_sound, equips, connections⟩ := sound.equips_equipAll project
  have freed := equipped_sound.turned_freeWhere fun name => !project.instruments.contains name
  have plugged : Racks.Plugged (transport.equipAll project).racks.find?
      (transport.equipAll project).graph project := by
    unfold Racks.Plugged
    rw [connections, List.filter_append, List.filter_filter, Racks.Sound.filter_plugged equipped_sound,
      List.append_nil]
    simp only [Bool.and_self]
  have cleared := sound.clear project
  exact ⟨⟨cleared.sound, freed.equips equipped_sound equips, cleared.silent⟩,
    freed.plugged_of_freed equipped_sound plugged⟩

/-! ### To follow a project's state -/

/-- The other transport is at the same place and plays the same, where voices have other keys. -/
structure Repeats (rename : NodeKey → NodeKey) (transport other : Transport τ) : Prop where
  alike : Racks.Alike (fun _ => True) rename transport.racks.find? transport.graph
    other.racks.find? other.graph
  fixed : ∀ key, transport.graph.contains key → key ∉ transport.voicesWhere (fun _ => true) →
    rename key = key
  state : other.state = transport.state
  location : other.location = transport.location
  settings : other.settings = transport.settings

/-! ### Projects that are not to be played -/

/-- A stopped transport in which everything is in place stays as it is. -/
theorem repeats_of_stopped (tidy : Racks.Tidy transport.racks.find? transport.graph project)
    (plugged : Racks.Plugged transport.racks.find? transport.graph project)
    (stopped : transport.state = .stopped) (still : project.playing = false) :
    ∃ twice, transport.reconcile project = .done twice ∧ Repeats id transport twice := by
  have sound : transport.Sound := tidy.sound
  have cleared := sound.clear project
  obtain ⟨racks, nodes, connections⟩ := cleared_again tidy
  have state : (transport.cleared project).state = transport.state := by rw [cleared.rest]
  have location : (transport.cleared project).location = transport.location := by
    rw [cleared.rest]
  have settings : (transport.cleared project).settings = transport.settings := by
    rw [cleared.rest]
  refine ⟨transport.cleared project, ?_, ?_, fun _ _ _ => rfl, state, location, settings⟩
  · rw [reconcile_eq, still, if_neg (by simp), Attempt.done_andThen,
      followState_of_stopped (state.trans stopped)]
  · have cleared_sound : Racks.Sound (transport.cleared project).racks.find?
        (transport.cleared project).graph := cleared.sound
    rw [racks] at cleared_sound ⊢
    exact Racks.Sound.alike_id sound cleared_sound cleared.clock nodes (connections.trans plugged)

/-- When playing ends, everything stays in place. -/
theorem tidy_stopped (tidy : Racks.Tidy transport.racks.find? transport.graph project)
    (plugged : Racks.Plugged transport.racks.find? transport.graph project) :
    let once := transport.followState false
    Racks.Tidy once.racks.find? once.graph project ∧
      Racks.Plugged once.racks.find? once.graph project ∧ once.state = .stopped := by
  intro once
  cases state : transport.state with
  | stopped =>
    have same : once = transport := followState_of_stopped state
    rw [same]
    exact ⟨tidy, plugged, state⟩
  | playing =>
    -- all voices go
    have is_freed : once = transport.pause.freeWhere fun _ => true := by
      show transport.followState false = _
      unfold followState
      rw [state]
    have paused_sound : transport.pause.Sound := Transport.Sound.pause tidy.sound
    have freed := paused_sound.turned_freeWhere fun _ => true
    obtain ⟨paused, nodes, connections⟩ : transport.pause.state = .stopped ∧
        (∀ key, transport.pause.graph.node? key = transport.graph.node? key) ∧
        transport.pause.graph.connections = transport.graph.connections := by
      unfold pause
      rw [state]
      exact ⟨rfl, fun _ => rfl, rfl⟩
    unfold Transport.Sound at paused_sound
    rw [← is_freed] at freed
    rw [racks_pause] at freed paused_sound
    refine ⟨freed.tidy (tidy.congr paused_sound nodes) (by simp),
      freed.plugged_of_freed paused_sound ?_, ?_⟩
    · unfold Racks.Plugged at plugged ⊢
      rwa [connections]
    · rw [is_freed]
      exact paused

theorem Sound.repeats_still (sound : transport.Sound) (still : project.playing = false) :
    ∃ once twice, transport.reconcile project = .done once ∧
      once.reconcile project = .done twice ∧ Repeats id once twice := by
  obtain ⟨tidy, plugged⟩ := sound.tidy_cleared project
  obtain ⟨once_tidy, once_plugged, stopped⟩ := tidy_stopped tidy plugged
  obtain ⟨twice, run, repeats⟩ := repeats_of_stopped once_tidy once_plugged stopped still
  refine ⟨_, twice, ?_, run, repeats⟩
  rw [reconcile_eq, still, if_neg (by simp), Attempt.done_andThen]

/-! ### Projects that are to be played -/

/-- Voices of a project's instruments are given up. -/
theorem turned_freed (tidy : Racks.Tidy transport.racks.find? transport.graph project) :
    let freed := transport.freeWhere project.instruments.contains
    Racks.Turned transport.racks.find? transport.graph project.instruments.names
      ([] : List (Call τ)) freed.racks.find? freed.graph := by
  have sound : transport.Sound := tidy.sound
  refine (sound.turned_freeWhere project.instruments.contains).of_names fun name => ?_
  rw [List.mem_filter, ← Roster.contains_iff_mem_names, ← Roster.contains_iff_mem_names]
  refine ⟨fun known => ⟨?_, known⟩, And.right⟩
  obtain ⟨instrument, described⟩ := Option.isSome_iff_exists.mp known
  obtain ⟨rack, found, -⟩ := tidy.equips name instrument described
  rw [Roster.contains, found, Option.isSome_some]

/-- Where waves can be made, the notes of the project take the place of the voices. -/
theorem Sound.reconcile_fits (sound : transport.Sound) (playing : project.playing = true)
    (fits : binCount transport.graph.rate ≤ Partials.maxBins) :
    ∃ scheduled : Transport τ, transport.reconcile project = .done (scheduled.followState true) ∧
      scheduled = { transport with graph := scheduled.graph, racks := scheduled.racks } ∧
      Racks.Turned (transport.cleared project).racks.find? (transport.cleared project).graph
        project.instruments.names ((transport.cleared project).calls project)
        scheduled.racks.find? scheduled.graph := by
  have cleared := sound.clear project
  obtain ⟨scheduled, run, kept, turned⟩ := cleared.sound.scheduleProject project
  have no_fault (calls : List (Call τ)) :
      Racks.faultOf (transport.cleared project).graph.rate calls = none :=
    if_pos (.inl (cleared.rate ▸ fits))
  have all (calls : List (Call τ)) : playable (transport.cleared project).graph.rate calls = calls :=
    if_pos (cleared.rate ▸ fits)
  rw [no_fault] at run
  rw [all] at turned
  refine ⟨scheduled, ?_, ?_, turned⟩
  · rw [reconcile_eq, playing, if_pos rfl, run]
    rfl
  · rw [kept, cleared.rest]

omit [Fourier] in
/-- The notes of a project make the same calls as long as nothing but voices and waves changes. -/
theorem calls_congr {other : Transport τ}
    (same : Racks.Revoiced transport.racks.find? other.racks.find?) (now : other.now = transport.now)
    (position : other.position = transport.position) :
    other.calls project = transport.calls project := by
  unfold calls
  rw [now, position]
  exact List.flatMap_congr fun name _ => same.callsOf ..

theorem Sound.repeats_playing (sound : transport.Sound) (playing : project.playing = true)
    (fits : binCount transport.graph.rate ≤ Partials.maxBins) :
    ∃ once twice rename, transport.reconcile project = .done once ∧
      once.reconcile project = .done twice ∧ Repeats rename once twice := by
  obtain ⟨scheduled, run, same, turned⟩ := sound.reconcile_fits playing fits
  obtain ⟨tidy, plugged⟩ := sound.tidy_cleared project
  obtain ⟨once, is_once⟩ : ∃ once, once = scheduled.followState true := ⟨_, rfl⟩
  obtain ⟨racks, nodes, connections, rate⟩ := scheduled.followState_playing
  obtain ⟨plays, location, settings, now⟩ := scheduled.followState_true
  rw [← is_once] at run racks nodes connections rate plays location settings now
  have known (call : Call τ) (called : call ∈ (transport.cleared project).calls project) :
      project.instruments.contains call.name :=
    Roster.contains_iff_mem_names.mpr (turned.named call called)
  have once_sound : once.Sound := by
    rw [is_once]
    exact Transport.Sound.followState turned.sound true
  have once_tidy : Racks.Tidy once.racks.find? once.graph project := by
    rw [racks]
    refine (turned.tidy tidy known).congr (racks ▸ once_sound) fun key => ?_
    rw [Graph.node?, nodes, Graph.node?]
  have once_rate : once.graph.rate = transport.graph.rate :=
    (rate.trans (congrArg Clock.rate turned.clock)).trans (sound.clear project).rate
  -- the second time, everything is in place
  obtain ⟨scheduled', run', same', turned'⟩ := once_sound.reconcile_fits playing (once_rate ▸ fits)
  obtain ⟨cleared_racks, cleared_nodes, cleared_connections⟩ := cleared_again once_tidy
  have again := once_sound.clear project
  have once_now : once.now = (transport.cleared project).now := by
    rw [now, Transport.now, Graph.now, turned.clock]
    rfl
  have once_position : once.position = (transport.cleared project).position := by
    rw [(sound.clear project).position, Transport.position, once_now, (sound.clear project).now,
      location, same]
    rfl
  rw [calls_congr (by rw [cleared_racks, racks]; exact turned.revoiced) (again.now.trans once_now)
    (again.position.trans once_position), cleared_racks, racks] at turned'
  have freed := turned_freed tidy
  have freed' := turned_freed (once_sound.tidy_cleared project).1
  rw [cleared_racks, racks] at freed'
  have is_twice : scheduled'.followState true = scheduled' :=
    followState_of_playing (by rw [same', plays])
  rw [is_twice] at run'
  have repeated := turned.again tidy.sound freed (racks ▸ once_sound) nodes connections rate turned'
    freed' again.clock cleared_nodes
    (turned.connections_again tidy.sound freed plugged (by
      rw [cleared_connections, connections, racks]) freed')
  refine ⟨once, scheduled', _, run, run', ⟨racks ▸ repeated, fun key alive silent => ?_, ?_, ?_, ?_⟩⟩
  · -- whatever has come with the pass is a voice
    refine extend_of_lt (Nat.lt_of_not_le fun le => silent ?_) _
    have alive : scheduled.graph.contains key := by
      rwa [Graph.contains, Graph.node?, nodes] at alive
    obtain ⟨name, -, id, ring, found, counted⟩ :=
      Racks.mem_voices.mp (turned.voiced_of_le tidy.sound le alive)
    exact mem_voicesWhere.mpr ⟨name, id, ring, rfl, racks ▸ found, counted⟩
  · rw [same']
  · rw [same']
  · rw [same']

end Transport

/-! ### What is the same -/

namespace Graph

/-- The keys that nodes live under. -/
def liveKeys (graph : Graph τ) : List NodeKey :=
  (List.range graph.nodes.size).filter graph.contains

theorem mem_liveKeys {graph : Graph τ} {key : NodeKey} :
    key ∈ graph.liveKeys ↔ graph.contains key := by
  rw [liveKeys, List.mem_filter, List.mem_range, and_iff_right_iff_imp]
  intro alive
  obtain ⟨node, found⟩ := Option.isSome_iff_exists.mp alive
  exact lt_size_of_node? found

theorem nodup_liveKeys (graph : Graph τ) : graph.liveKeys.Nodup :=
  List.nodup_range.filter _

theorem length_liveKeys (graph : Graph τ) : graph.liveKeys.length = graph.nodeCount := by
  have listed : graph.nodes.toList = (List.range graph.nodes.size).map graph.node? := by
    refine List.ext_getElem (by simp) fun key lt _ => ?_
    have lt : key < graph.nodes.size := by simpa using lt
    simp [node?, lt]
  rw [nodeCount, ← Array.countP_toList, listed, List.countP_map, List.countP_eq_length_filter]
  rfl

end Graph

namespace Racks

variable [Fourier] {racks racks' : Racks} {graph graph' : Graph τ} {f : NodeKey → NodeKey}

/-- The destination is the one node that no instrument owns. -/
theorem Sound.contains_iff (sound : racks.Sound graph) {key : NodeKey} : graph.contains key ↔
    key = Graph.destination ∨ racks.Holds (fun _ => True) key := by
  refine (sound.ledger.lives key).trans (or_congr_right ⟨?_, ?_⟩)
  · rintro ⟨holder, held⟩
    exact ⟨holder.instrument, trivial, holder, rfl, held⟩
  · rintro ⟨name, -, holder, -, held⟩
    exact ⟨holder, held⟩

theorem Sound.wiring_all (sound : racks.Sound graph) :
    racks.wiring (fun _ => True) graph = graph.connections := by
  refine fromBand_eq_self fun c made => ?_
  obtain ⟨name, owned, -⟩ := sound.wired c made
  exact ⟨name, trivial, owned⟩

section Alike

variable (alike : Alike (fun _ => True) f racks graph racks' graph')

include alike

theorem Alike.contains_iff {key' : NodeKey} :
    graph'.contains key' ↔ ∃ key, graph.contains key ∧ f key = key' := by
  rw [alike.sound'.contains_iff]
  constructor
  · rintro (rfl | ⟨name, member, owned⟩)
    · exact ⟨_, alike.sound.contains_iff.mpr (.inl rfl), alike.destination⟩
    · obtain ⟨key, before, same⟩ := alike.exists_of_owns member owned
      exact ⟨key, alike.sound.contains_of_owns before, same⟩
  · rintro ⟨key, alive, rfl⟩
    rcases alike.sound.contains_iff.mp alive with rfl | held
    · exact .inl alike.destination
    · exact .inr (alike.holds held)

theorem Alike.injective_of_contains {key other : NodeKey} (alive : graph.contains key)
    (alive' : graph.contains other) (same : f key = f other) : key = other := by
  have labelled {key : NodeKey} (alive : graph.contains key) :
      racks.label (fun _ => True) f key = some (f key) :=
    label_eq_some_iff.mpr ⟨alike.sound.contains_iff.mp alive, rfl⟩
  exact alike.renames.label_injective key other _ (labelled alive) (same ▸ labelled alive')

theorem Alike.nodeCount : graph'.nodeCount = graph.nodeCount := by
  have moved : (graph.liveKeys.map f).Perm graph'.liveKeys := by
    refine (List.perm_ext_iff_of_nodup ?_ graph'.nodup_liveKeys).mpr fun key' => ?_
    · exact graph.nodup_liveKeys.map_on fun key alive other alive' =>
        alike.injective_of_contains (Graph.mem_liveKeys.mp alive) (Graph.mem_liveKeys.mp alive')
    · simp only [List.mem_map, Graph.mem_liveKeys, alike.contains_iff]
  rw [← Graph.length_liveKeys, ← Graph.length_liveKeys, ← moved.length_eq, List.length_map]

end Alike

end Racks

namespace Transport

/-- Everything in two transports is the same, but that voices have other keys. -/
structure SameUpTo (rename : NodeKey → NodeKey) (transport other : Transport τ) : Prop where
  injective : ∀ key key', transport.graph.contains key → transport.graph.contains key' →
    rename key = rename key' → key = key'
  fixed : ∀ key, transport.graph.contains key → key ∉ transport.voicesWhere (fun _ => true) →
    rename key = key
  state : other.state = transport.state
  location : other.location = transport.location
  settings : other.settings = transport.settings
  clock : other.graph.clock = transport.graph.clock
  nodeCount : other.graph.nodeCount = transport.graph.nodeCount
  /-- Nodes have the same values, windows, phases and wave tables. -/
  nodes : ∀ key, transport.graph.contains key →
    (other.graph.node? (rename key)).map Node.unnumbered =
      (transport.graph.node? key).map Node.unnumbered
  /-- Connections stand in the same order. -/
  connections : other.graph.connections = transport.graph.connections.map (Connection.map rename)
  /-- Oscillators have the same settings, voices and kept waves. -/
  rings : ∀ name id, Option.Rel (RingOscillator.Twin rename)
    (Racks.ring? transport.racks.find? name id) (Racks.ring? other.racks.find? name id)
  stages : ∀ name id,
    Racks.stage? other.racks.find? name id = Racks.stage? transport.racks.find? name id
  labels : ∀ name,
    (other.racks.find? name).map Rack.labels = (transport.racks.find? name).map Rack.labels

section Repeating

variable [Fourier] {transport other : Transport τ} {rename : NodeKey → NodeKey}

theorem Repeats.sameUpTo (repeats : Repeats rename transport other) :
    SameUpTo rename transport other where
  injective := fun _ _ => repeats.alike.injective_of_contains
  fixed := repeats.fixed
  state := repeats.state
  location := repeats.location
  settings := repeats.settings
  clock := repeats.alike.clock
  nodeCount := repeats.alike.nodeCount
  nodes := by
    intro key alive
    rcases repeats.alike.sound.contains_iff.mp alive with rfl | held
    · rw [repeats.alike.destination, repeats.alike.sound.destination_node,
        repeats.alike.sound'.destination_node]
    · exact repeats.alike.nodes key held
  connections := by
    have wiring := repeats.alike.wiring
    rwa [repeats.alike.sound.wiring_all, repeats.alike.sound'.wiring_all] at wiring
  rings := fun name => repeats.alike.rings name trivial
  stages := by
    intro name id
    rw [repeats.alike.stages name trivial id]
    cases found : Racks.stage? transport.racks.find? name id with
    | none => rfl
    | some stage =>
      -- the node of a gain is no voice
      have stands : Racks.Stands transport.racks.find? name (.stage id) := ⟨stage, found⟩
      have silent : stage.key ∉ transport.voicesWhere (fun _ => true) := by
        intro voiced
        obtain ⟨place, id', ring, -, found', counted⟩ := mem_voicesWhere.mp voiced
        exact repeats.alike.sound.keyAt_not_counted stands found'
          (Racks.keyAt_stage found ▸ counted)
      rw [Option.map_some, GainStage.map, repeats.fixed stage.key
        (repeats.alike.sound.contains_of_owns (Racks.owns_stage found)) silent]
  labels := fun name => repeats.alike.labels name trivial

theorem Repeats.unison (repeats : Repeats rename transport other) :
    Unison (fun _ => True) transport other :=
  ⟨⟨rename, repeats.alike⟩, repeats.state, repeats.location⟩

omit [Fourier] in
/-- Operations agree with themselves. -/
theorem Operation.AgreesOn.refl (band : String → Prop) (operation : Operation τ) :
    operation.AgreesOn band operation := by
  cases operation with
  | reconcile project => exact Project.AgreesOn.refl ..
  | _ => rfl

variable [TimeAxis τ]

/-- What is rendered. -/
def heard (transport : Transport τ) (n : Nat) : Except Fault (List Float32) :=
  (transport.render n).map (·.1)

/-- A project that has just been reconciled with is reconciled with again. Everything is the same
but for the keys of voices, and nothing is heard of it, whatever is done from then on. -/
theorem redundant_reconcile (settings : Settings)
    (fits : binCount settings.sampleRate ≤ Partials.maxBins) (operations : List (Operation τ))
    (project : Project τ) :
    ∃ once twice, (after settings operations).reconcile project = .done once ∧
      once.reconcile project = .done twice ∧ (∃ rename, SameUpTo rename once twice) ∧
      ∀ later : List (Operation τ), ∃ samples : List (List Float32),
        once.observed heard later = samples.map .ok ∧
        twice.observed heard later = samples.map .ok := by
  obtain ⟨sound, rate⟩ := sound_after settings operations
  obtain ⟨once, twice, rename, run, run', repeats⟩ :
      ∃ once twice rename, (after settings operations).reconcile project = .done once ∧
        once.reconcile project = .done twice ∧ Repeats rename once twice := by
    cases playing : project.playing with
    | true => exact sound.repeats_playing playing (rate ▸ fits)
    | false =>
      obtain ⟨once, twice, run, run', repeats⟩ := sound.repeats_still playing
      exact ⟨once, twice, id, run, run', repeats⟩
  refine ⟨once, twice, run, run', ⟨rename, repeats.sameUpTo⟩, fun later => ?_⟩
  have once_rate : once.graph.rate = settings.sampleRate := by
    have kept := sound.rate_reconcile project
    rw [run] at kept
    exact kept.trans rate
  refine repeats.unison.observed_eq (fun transport other n unison => ?_) (once_rate ▸ fits)
    (List.forall₂_same.mpr fun operation _ => .refl _ operation)
  obtain ⟨samples, samples', next, next', render, render', -, same⟩ := unison.render n
  refine ⟨samples, by rw [heard, render]; rfl, ?_⟩
  rw [heard, render', same fun _ => trivial]
  rfl

end Repeating

theorem redundant_reconcile_demo :
    let operations : List (Operation Float) := [.reconcile Project.demo, .render 300, .seek 0.25]
    binCount ({} : Settings).sampleRate ≤ Partials.maxBins ∧
      ∃ once twice, (after {} operations).reconcile Project.demo = .done once ∧
        once.reconcile Project.demo = .done twice ∧ (∃ rename, SameUpTo rename once twice) ∧
        ∀ later : List (Operation Float), ∃ samples : List (List Float32),
          once.observed heard later = samples.map .ok ∧
          twice.observed heard later = samples.map .ok :=
  ⟨by decide, redundant_reconcile {} (by decide) _ Project.demo⟩

end Transport

end Patchbay
