import Patchbay.Proofs.Rack.Turnover

/-!
# Keeping racks and graph in step

What the transport does besides scheduling: it runs and stops the clock, silences, renders, equips
instruments and frees voices. Each of these keeps its racks and its graph in step.
-/
namespace Patchbay

variable {τ : Type}

/-! ### Changes that build and remove nothing -/

namespace Graph

/-- Nodes keep their kinds, gains their factors and the wiring stays. -/
structure Steady (before after : Graph τ) : Prop where
  kinds : ∀ key, after.kind? key = before.kind? key
  gains : ∀ key factor, before.node? key = some (.gain factor) →
    after.node? key = some (.gain factor)
  connections : after.connections = before.connections
  rate : after.rate = before.rate
  wellFormed : before.WellFormed → after.WellFormed

variable {before middle after : Graph τ}

theorem Steady.refl (graph : Graph τ) : graph.Steady graph :=
  ⟨fun _ => rfl, fun _ _ found => found, rfl, rfl, id⟩

theorem Steady.trans (first : before.Steady middle) (second : middle.Steady after) :
    before.Steady after where
  kinds := fun key => (second.kinds key).trans (first.kinds key)
  gains := fun key factor found => second.gains key factor (first.gains key factor found)
  connections := second.connections.trans first.connections
  rate := second.rate.trans first.rate
  wellFormed := fun h => second.wellFormed (first.wellFormed h)

theorem Reported.steady (h : before.Reported after) : before.Steady after := by
  have kept := h.wellFormed
  obtain ⟨_, _, rfl⟩ := h
  exact ⟨fun _ => rfl, fun _ _ found => found, rfl, rfl, kept⟩

theorem steady_resume (graph : Graph τ) : graph.Steady graph.resume :=
  ⟨fun _ => rfl, fun _ _ found => found, rfl, rfl,
    fun h => h.of_same (fun _ => rfl) rfl h.buffered fun _ kept => .inl kept⟩

theorem steady_suspend (graph : Graph τ) : graph.Steady graph.suspend :=
  ⟨fun _ => rfl, fun _ _ found => found, rfl, rfl,
    fun h => h.of_same (fun _ => rfl) rfl h.buffered fun _ kept => .inl kept⟩

theorem steady_modifyGenerator (graph : Graph τ) (key : NodeKey) (f : Generator τ → Generator τ) :
    graph.Steady (graph.modifyGenerator key f).1 where
  kinds := fun other => kind?_modifyGenerator graph key f other
  gains := by
    intro other factor found
    rw [node?_modifyGenerator]
    split
    · rename_i here
      subst here
      rw [found]
      rfl
    · exact found
  connections := by simp
  rate := by simp [rate]
  wellFormed := fun h => h.modifyGenerator key f

/-- To arm the stops of generators changes nothing else. -/
theorem foldl_armStop (graph : Graph τ) (keys : List NodeKey) (time : τ) :
    ∃ after, keys.foldl (fun graph key => (graph.armStop key time).1) graph = after ∧
      after.clock = graph.clock ∧ after.connections = graph.connections ∧
      ∀ key, after.node? key = if key ∈ keys then (graph.node? key).map
        (Node.mapGenerator fun generator => { generator with stops := some time })
      else graph.node? key := by
  induction keys generalizing graph with
  | nil => exact ⟨graph, rfl, rfl, rfl, by simp⟩
  | cons first rest ih =>
    obtain ⟨after, run, clock, connections, nodes⟩ := ih (graph.armStop first time).1
    refine ⟨after, run, clock.trans (by simp [armStop]), connections.trans (by simp [armStop]),
      fun key => ?_⟩
    rw [nodes, armStop, node?_modifyGenerator]
    by_cases here : key = first
    · subst here
      -- to be armed twice is to be armed once
      cases graph.node? key with
      | none => simp
      | some node => cases node <;> simp [Node.mapGenerator]
    · simp [here]

theorem steady_foldl {α : Type} {f : Graph τ → α → Graph τ}
    (h : ∀ (graph : Graph τ) a, graph.Steady (f graph a)) (graph : Graph τ) (list : List α) :
    graph.Steady (list.foldl f graph) := by
  induction list generalizing graph with
  | nil => exact .refl graph
  | cons a rest ih => exact (h graph a).trans (ih (f graph a))

/-- So is all that rendering leaves. -/
theorem Elapsed.steady {n : Nat} (elapsed : before.Elapsed n after) : before.Steady after where
  kinds := elapsed.phases.kind?
  gains := fun _ _ => elapsed.phases.gain
  connections := elapsed.connections
  rate := elapsed.rate
  wellFormed := elapsed.wellFormed

end Graph

namespace Racks

variable [Fourier] {racks : Racks} {graph after : Graph τ}

theorem Sound.steady (sound : racks.Sound graph) (h : graph.Steady after) : racks.Sound after := by
  refine sound.rewire (h.wellFormed sound.wellFormed) h.kinds (fun name id ring found => ?_) h.rate
    fun c mem => .inl (h.connections ▸ mem)
  have output := (sound.rings name id ring found).output
  rw [output, h.gains _ _ output]

/-- A rack without parts holds nothing. -/
theorem Sound.addRack {name : String} (sound : racks.Sound graph) (absent : racks name = none) :
    (racks.set name .empty).Sound graph := by
  refine sound.recast (fun place id => ?_) (fun place id => ?_) ?_
  · rw [ring?_set]
    split
    · rename_i here
      rw [here, ring?, absent]
      rfl
    · rfl
  · rw [stage?_set]
    split
    · rename_i here
      rw [here, stage?, absent]
      rfl
    · rfl
  · intro place rack id key found sink
    by_cases here : place = name
    · rw [here, set_self] at found
      cases found
      cases sink
    · rw [set_of_ne here] at found
      exact sound.sinks place rack id key found sink

/-- The rack of an instrument, without parts if it is not there yet. -/
def rackOf (racks : Racks) (name : String) : Rack :=
  (racks name).getD .empty

/-- Furnish and patch a rack. -/
def equip (racks : Racks) (graph : Graph τ) (name : String) (instrument : Instrument)
    (cables : List Cable) : Rack × Graph τ :=
  let (rack, graph) := (racks.rackOf name).furnish graph instrument
  rack.patch graph cables

theorem Sound.rackOf (sound : racks.Sound graph) (name : String) :
    (racks.set name (racks.rackOf name)).Sound graph := by
  unfold Racks.rackOf
  cases found : racks name with
  | none => exact sound.addRack found
  | some rack => exact (set_eq_self found).symm ▸ sound

end Racks

/-! ### The transport -/

namespace Transport

/-- The racks and the graph of a transport are in step. -/
def Sound [Fourier] (transport : Transport τ) : Prop :=
  Racks.Sound transport.racks.find? transport.graph

variable {transport : Transport τ}

section Equipment

variable [Fourier]

theorem sound_create [TimeAxis τ] (settings : Settings) :
    (create settings : Transport τ).Sound where
  wellFormed := Graph.wellFormed_atRate settings.sampleRate
  ledger := by
    have none_held (holder : Holder) : Racks.held (Roster.empty : Roster Rack).find? holder = [] := by
      cases holder <;> rfl
    constructor
    case once => exact fun holder => none_held holder ▸ List.nodup_nil
    case apart =>
      intro holder other key mem
      rw [create, none_held] at mem
      cases mem
    case lives =>
      intro key
      cases key with
      | zero => simp [create, Graph.contains, Graph.node?, Graph.atRate, Graph.destination]
      | succ key =>
        simp [create, Graph.contains, Graph.node?, Graph.atRate, Graph.destination, none_held]
    case inner =>
      intro holder mem
      rw [create, none_held] at mem
      cases mem
  rings := by
    intro name id ring found
    cases found
  stages := by
    intro name id stage found
    cases found
  sinks := by
    intro name rack id key found
    cases found
  wired := by
    intro c mem
    cases mem
  controls := by
    intro c mem
    cases mem

/-- The rack of an instrument, without parts if it is not there yet. -/
def rackOf (transport : Transport τ) (name : String) : Rack :=
  (transport.racks.find? name).getD .empty

theorem Sound.rackOf (sound : transport.Sound) (name : String) :
    (Racks.set transport.racks.find? name (transport.rackOf name)).Sound transport.graph :=
  Racks.Sound.rackOf sound name

/-- To equip an instrument furnishes its rack and leaves the other racks alone. -/
theorem Sound.equip (sound : transport.Sound) (name : String) (instrument : Instrument)
    (cables : List Cable) :
    ∃ rack after, transport.equip name instrument cables =
        { transport with graph := after, racks := transport.racks.insert name rack } ∧
      (transport.equip name instrument cables).Sound ∧ rack.Furnished instrument ∧
      Racks.Spares transport.racks.find? name transport.graph after ∧
      after.clock = transport.graph.clock ∧
      ∀ id role, rack.HasRole id role →
        (transport.rackOf name).HasRole id role ∨ instrument.HasRole id role := by
  obtain ⟨furnished, middle, furnish, sound, spares, -, clock, full, roles⟩ :=
    (sound.rackOf name).furnish instrument
  obtain ⟨patched, after, patch, sound, spares', clock', same⟩ := sound.patch cables
  have equipped : transport.equip name instrument cables =
      { transport with graph := after, racks := transport.racks.insert name patched } := by
    rw [Transport.rackOf] at furnish
    simp only [Transport.equip, furnish, patch]
  refine ⟨patched, after, equipped, ?_, same.furnished full, spares.trans spares',
    clock'.trans clock, ?_⟩
  · rw [equipped]
    simpa only [Transport.Sound, Racks.find?_insert] using sound
  · exact fun id role has => roles id role ((same.hasRole id role).mp has)

/-! ### Oscillators and their generators -/

/-- The oscillator of an instrument in the graph. -/
def ring? (transport : Transport τ) (name id : String) : Option RingOscillator :=
  Racks.ring? transport.racks.find? name id

theorem Sound.generators_nodup (sound : transport.Sound) {name id : String} {ring : RingOscillator}
    (found : transport.ring? name id = some ring) : ring.oscillator.generators.Nodup := by
  have once := sound.ledger.once (.ring name id)
  have found : Racks.ring? transport.racks.find? name id = some ring := found
  simp only [Racks.held, found, Option.elim, RingOscillator.keys] at once
  have nodes : ring.oscillator.nodes.Nodup := (List.nodup_cons.mp (List.nodup_cons.mp once).2).2
  exact nodes.sublist (sound.rings name id ring found).generators

theorem Sound.held_of_generator (sound : transport.Sound) {name id : String} {ring : RingOscillator}
    (found : transport.ring? name id = some ring) {key : NodeKey}
    (mem : key ∈ ring.oscillator.generators) :
    key ∈ Racks.held transport.racks.find? (.ring name id) := by
  have counted := (sound.rings name id ring found).generators.subset mem
  exact (Racks.mem_held_ring found).mpr (RingOscillator.mem_keys_of_counted counted)

/-- Every generator is counted by an oscillator. -/
theorem Sound.counted_of_generator (sound : transport.Sound) {key : NodeKey}
    (generator : transport.graph.kind? key = some .generator) :
    ∃ name id ring, transport.ring? name id = some ring ∧ key ∈ ring.oscillator.generators := by
  have lives : transport.graph.contains key := by
    rw [Graph.contains_eq_isSome_kind?, generator]
    rfl
  rcases (sound.ledger.lives key).mp lives with rfl | ⟨holder, mem⟩
  · rw [(sound.wellFormed.destined _).mpr rfl] at generator
    cases generator
  · have owned : Racks.Owns transport.racks.find? holder.instrument key := ⟨holder, rfl, mem⟩
    rcases owned.ring_or_stage with ⟨id, ring, found, held⟩ | ⟨id, stage, found, rfl⟩
    · have ring_sound := sound.rings holder.instrument id ring found
      refine ⟨holder.instrument, id, ring, found, ?_⟩
      rcases RingOscillator.mem_keys.mp held with rfl | rfl | counted
      · rw [Graph.kind?, ring_sound.output] at generator
        cases generator
      · rw [ring_sound.control] at generator
        cases generator
      · rw [ring_sound.voices key counted] at generator
        by_cases tracked : key ∈ ring.oscillator.generators
        · exact tracked
        · rw [if_neg tracked] at generator
          cases generator
    · rw [sound.stages holder.instrument id stage found] at generator
      cases generator

end Equipment

/-- The generators of all voices. -/
def generators (transport : Transport τ) : List NodeKey :=
  transport.racks.values.flatMap fun rack =>
    rack.oscillators.values.flatMap (·.oscillator.generators)

theorem mem_generators {transport : Transport τ} {key : NodeKey} : key ∈ transport.generators ↔
    ∃ name id ring, Racks.ring? transport.racks.find? name id = some ring ∧
      key ∈ ring.oscillator.generators := by
  simp only [generators, List.mem_flatMap, Roster.mem_values, Racks.ring?,
    Option.bind_eq_some_iff]
  constructor
  · rintro ⟨rack, ⟨name, found⟩, ring, ⟨id, found_ring⟩, mem⟩
    exact ⟨name, id, ring, ⟨rack, found, found_ring⟩, mem⟩
  · rintro ⟨name, id, ring, ⟨rack, found, found_ring⟩, mem⟩
    exact ⟨rack, ⟨name, found⟩, ring, ⟨id, found_ring⟩, mem⟩

/-! ### Freeing racks -/

/-- The nodes of the voices of some of the racks. -/
def voicesWhere (transport : Transport τ) (which : String → Bool) : List NodeKey :=
  transport.racks.entries.flatMap fun (name, rack) => if which name then rack.tracked else []

theorem mem_voicesWhere {which : String → Bool} {key : NodeKey} :
    key ∈ transport.voicesWhere which ↔ ∃ name id ring, which name = true ∧
      Racks.ring? transport.racks.find? name id = some ring ∧ key ∈ ring.oscillator.nodes := by
  simp only [voicesWhere, List.mem_flatMap]
  constructor
  · rintro ⟨⟨name, rack⟩, entry, mem⟩
    dsimp only at mem
    split at mem
    · rename_i asked
      obtain ⟨id, ring, found, counted⟩ := Rack.mem_tracked.mp mem
      refine ⟨name, id, ring, asked, ?_, counted⟩
      rw [Racks.ring?, Roster.find?_eq_some_iff.mpr entry]
      exact found
    · cases mem
  · rintro ⟨name, id, ring, asked, found, counted⟩
    obtain ⟨rack, found_rack, found⟩ := Option.bind_eq_some_iff.mp found
    refine ⟨(name, rack), Roster.find?_eq_some_iff.mp found_rack, ?_⟩
    rw [if_pos asked]
    exact Rack.mem_tracked.mpr ⟨id, ring, found, counted⟩

theorem snd_freeWhere [TimeAxis τ] (transport : Transport τ) (which : String → Bool) :
    (transport.freeWhere which).graph = (transport.voicesWhere which).foldl
      (fun graph key => (graph.remove key).1) transport.graph := by
  simp only [freeWhere, Roster.snd_mapState, voicesWhere, List.foldl_flatMap]
  congr 1
  funext graph ⟨name, rack⟩
  by_cases asked : which name
  · simp only [asked, if_true, Rack.snd_free]
  · simp [asked]

theorem find?_freeWhere [TimeAxis τ] (transport : Transport τ) (which : String → Bool)
    (name : String) : (transport.freeWhere which).racks.find? name =
      (transport.racks.find? name).map fun rack =>
        if which name then (rack.free transport.graph).1 else rack := by
  refine Roster.find?_mapState (g := fun name (rack : Rack) =>
    if which name then (rack.free transport.graph).1 else rack) (fun place rack graph => ?_) _ _ _
  split
  · exact rack.fst_free_congr graph transport.graph
  · rfl

theorem ring?_freeWhere [TimeAxis τ] (transport : Transport τ) (which : String → Bool)
    (name id : String) : Racks.ring? (transport.freeWhere which).racks.find? name id =
      (Racks.ring? transport.racks.find? name id).map fun ring =>
        if which name then ring.freed else ring := by
  simp only [Racks.ring?, find?_freeWhere]
  cases transport.racks.find? name with
  | none => rfl
  | some rack =>
    simp only [Option.map_some, Option.bind_some]
    split
    · exact Rack.find?_free rack transport.graph id
    · simp

theorem stage?_freeWhere [TimeAxis τ] (transport : Transport τ) (which : String → Bool)
    (name id : String) : Racks.stage? (transport.freeWhere which).racks.find? name id =
      Racks.stage? transport.racks.find? name id := by
  simp only [Racks.stage?, find?_freeWhere]
  cases transport.racks.find? name with
  | none => rfl
  | some rack =>
    simp only [Option.map_some, Option.bind_some]
    split <;> rfl

/-- To free some of the racks removes their voices and nothing else. -/
theorem Sound.freeWhere [Fourier] [TimeAxis τ] (sound : transport.Sound) (which : String → Bool) :
    (transport.freeWhere which).Sound ∧
      (transport.freeWhere which).graph.clock = transport.graph.clock ∧
      (transport.freeWhere which).graph.nodes.size = transport.graph.nodes.size ∧
      (transport.freeWhere which).graph.connections = transport.graph.connections.filter
        (fun c => c.source ∉ transport.voicesWhere which ∧
          c.target ∉ transport.voicesWhere which) ∧
      ∀ key, (transport.freeWhere which).graph.node? key =
        if key ∈ transport.voicesWhere which then none else transport.graph.node? key := by
  have inner : Graph.destination ∉ transport.voicesWhere which := by
    intro mem
    obtain ⟨name, id, ring, -, found, counted⟩ := mem_voicesWhere.mp mem
    exact sound.ledger.inner _ ((Racks.mem_held_ring found).mpr
      (RingOscillator.mem_keys_of_counted counted))
  obtain ⟨after, removed, wellFormed, clock, size, connections, nodes⟩ :=
    transport.graph.foldl_remove sound.wellFormed (transport.voicesWhere which) inner
  rw [← snd_freeWhere] at removed
  refine ⟨?_, by rw [removed, clock], by rw [removed, size], by rw [removed, connections],
    by simpa only [removed] using nodes⟩
  have sinks (name : String) (rack : Rack) (id : String) (key : NodeKey)
      (found : (transport.freeWhere which).racks.find? name = some rack)
      (sink : rack.sinks.find? id = some key) : key = Graph.destination := by
    rw [find?_freeWhere] at found
    obtain ⟨old, found_old, rfl⟩ := Option.map_eq_some_iff.mp found
    refine sound.sinks name old id key found_old ?_
    split at sink <;> exact sink
  have released : Racks.Released transport.racks.find? transport.graph which
      (transport.voicesWhere which) (transport.freeWhere which).racks.find?
      (transport.freeWhere which).graph := by
    rw [removed]
    exact ⟨fun _ => mem_voicesWhere, transport.ring?_freeWhere which,
      transport.stage?_freeWhere which, sinks, wellFormed, by simp only [Graph.rate, clock], nodes,
      connections⟩
  exact released.sound sound

/-! ### Playing, pausing, resetting and rendering -/

variable [TimeAxis τ]

theorem steady_play (transport : Transport τ) : transport.graph.Steady transport.play.graph := by
  unfold play
  split
  · exact .refl _
  · exact (transport.graph.steady_resume).trans (Graph.reported_log _ _).steady

theorem steady_pause (transport : Transport τ) : transport.graph.Steady transport.pause.graph := by
  unfold pause
  split
  · exact .refl _
  · exact (transport.graph.steady_suspend).trans (Graph.reported_log _ _).steady

theorem steady_reset (transport : Transport τ) : transport.graph.Steady transport.reset.graph := by
  refine (Graph.steady_foldl (fun graph rack => ?_) _ _).trans (Graph.reported_log _ _).steady
  refine Graph.steady_foldl (fun graph ring => ?_) _ _
  exact Graph.steady_foldl (fun graph key => graph.steady_modifyGenerator key _) _ _

/-- To halt all racks arms the stop of each of their generators. -/
theorem foldl_halt (transport : Transport τ) :
    transport.racks.values.foldl (fun graph rack => rack.halt graph) transport.graph =
      transport.generators.foldl (fun graph key => (graph.armStop key 0).1) transport.graph := by
  simp only [generators, List.foldl_flatMap]
  rfl

/-- To reset arms the stops of all generators. -/
theorem graph_reset (transport : Transport τ) :
    transport.reset.graph.clock = transport.graph.clock ∧
      transport.reset.graph.connections = transport.graph.connections ∧
      ∀ key, transport.reset.graph.node? key =
        if key ∈ transport.generators then (transport.graph.node? key).map
          (Node.mapGenerator fun generator => { generator with stops := some (0 : τ) })
        else transport.graph.node? key := by
  obtain ⟨after, run, clock, connections, nodes⟩ :=
    transport.graph.foldl_armStop transport.generators 0
  simp only [reset, foldl_halt, run]
  exact ⟨clock, connections, nodes⟩

theorem racks_play (transport : Transport τ) : transport.play.racks = transport.racks := by
  unfold play
  split <;> rfl

theorem racks_pause (transport : Transport τ) : transport.pause.racks = transport.racks := by
  unfold pause
  split <;> rfl

variable [Fourier]

theorem Sound.play (sound : transport.Sound) : transport.play.Sound := by
  unfold Sound
  rw [racks_play]
  exact Racks.Sound.steady sound transport.steady_play

theorem Sound.pause (sound : transport.Sound) : transport.pause.Sound := by
  unfold Sound
  rw [racks_pause]
  exact Racks.Sound.steady sound transport.steady_pause

theorem Sound.reset (sound : transport.Sound) : transport.reset.Sound :=
  Racks.Sound.steady sound transport.steady_reset

theorem Sound.followState (sound : transport.Sound) (playing : Bool) :
    (transport.followState playing).Sound := by
  unfold Transport.followState
  split
  · exact sound.play
  · exact (sound.pause.freeWhere fun _ => true).1
  · exact sound

theorem Sound.render (sound : transport.Sound) {n : Nat} {samples : List Float32}
    {after : Transport τ} (rendered : transport.render n = .ok (samples, after)) : after.Sound := by
  simp only [Transport.render, Fault.bind_ok_iff] at rendered
  obtain ⟨⟨samples', graph⟩, rendered, same⟩ := rendered
  cases same
  exact Racks.Sound.steady sound (Graph.elapsed_render rendered).steady

end Transport

end Patchbay
