import Patchbay.Proofs.Reconciliation.Layout

/-!
# To equip again

An instrument that is equipped again, as it stands, keeps its rack and its nodes. Only its cables are
pulled out and plugged in anew, so that its connections come to stand behind all others.
-/
namespace Patchbay

variable {τ : Type}

/-! ### Equipped racks -/

/-- A rack stands as its instrument and its cables ask for. -/
structure Rack.Equipped (rack : Rack) (graph : Graph τ) (instrument : Instrument)
    (cables : List Cable) : Prop where
  full : rack.Furnished instrument
  rings : ∀ id ring, rack.oscillators.find? id = some ring →
    graph.node? ring.oscillator.control =
        some (.constant ((rack.board cables).levels (.control id))) ∧
      ring.oscillator.followsNote = (rack.board cables).follows id
  stages : ∀ id stage, rack.gains.find? id = some stage →
    graph.node? stage.key = some (.gain ((rack.board cables).levels (.stage id)))

/-- It hangs on the knobs of the rack alone. -/
theorem Rack.Equipped.congr {rack : Rack} {graph after : Graph τ} {instrument : Instrument}
    {cables : List Cable} (equipped : rack.Equipped graph instrument cables)
    (kept : ∀ key ∈ rack.knobs, after.node? key = graph.node? key) :
    rack.Equipped after instrument cables where
  full := equipped.full
  rings := by
    intro id ring found
    rw [kept _ (Rack.control_mem_knobs found)]
    exact equipped.rings id ring found
  stages := by
    intro id stage found
    rw [kept _ (Rack.stage_mem_knobs found)]
    exact equipped.stages id stage found

namespace Racks

variable {racks : Racks} {name : String} {rack rack' : Rack} {graph after : Graph τ}
  {instrument : Instrument} {cables : List Cable}

theorem owns_knob (found : racks name = some rack) {key : NodeKey} (knob : key ∈ rack.knobs) :
    racks.Owns name key := by
  rcases Rack.mem_knobs.mp knob with ⟨id, ring, here, rfl⟩ | ⟨id, stage, here, rfl⟩
  · exact owns_ring (Option.bind_eq_some_iff.mpr ⟨rack, found, here⟩) ring.control_mem_keys
  · exact owns_stage (Option.bind_eq_some_iff.mpr ⟨rack, found, here⟩)

variable [Fourier]

theorem Patched.equipped (patched : Patched racks name rack graph cables rack' after)
    (full : rack.Furnished instrument) : rack'.Equipped after instrument cables where
  full := patched.parts.furnished full
  rings := by
    intro id ring found
    rw [patched.parts.sameFrame.board]
    obtain ⟨old, found_old, -⟩ := patched.parts.ring found
    obtain ⟨same, found_same, level, follows⟩ :=
      patched.settled.rings id (.inl ⟨old, ring?_set_self.trans found_old⟩)
    rw [ring?_set_self, found] at found_same
    cases found_same
    exact ⟨level, follows⟩
  stages := by
    intro id stage found
    rw [patched.parts.sameFrame.board]
    have found_old : rack.gains.find? id = some stage := by
      rwa [patched.parts.rest] at found
    obtain ⟨same, found_same, level⟩ :=
      patched.settled.stages id ⟨stage, stage?_set_self.trans found_old⟩
    rw [stage?_set_self, found] at found_same
    cases found_same
    exact level

/-- To equip an instrument pulls out its old cables and plugs in those of its board. -/
theorem Sound.equipped (sound : racks.Sound graph) (name : String) (instrument : Instrument)
    (cables : List Cable) :
    let next := racks.equip graph name instrument cables
    (racks.set name next.1).Sound next.2 ∧ next.1.Equipped next.2 instrument cables ∧
      next.2.clock = graph.clock ∧ racks.Spares name graph next.2 ∧
      next.2.connections = graph.connections.filter next.1.spares ++
        (next.1.board cables).wires.map ((racks.set name next.1).lift name) := by
  intro next
  obtain ⟨furnished, middle, furnish, furnished_sound, spares, connections, clock, full, -⟩ :=
    (sound.rackOf name).furnish instrument
  obtain ⟨changed, after, patch, patched⟩ := furnished_sound.patched cables
  have is_next : next = (changed, after) := by
    simp only [next, Racks.equip, furnish, patch]
  have frame := patched.parts.sameFrame
  rw [is_next]
  refine ⟨patched.sound, patched.equipped full, patched.clock.trans clock,
    spares.trans patched.spares, ?_⟩
  rw [patched.connections, connections, frame.spares, frame.board,
    lift_congr (keyAt_sameFrame set_self set_self frame)]

end Racks

/-! ### Once more -/

theorem RingOscillator.eq_of_fixed {ring other : RingOscillator} (same : other.fixed = ring.fixed)
    (follows : other.oscillator.followsNote = ring.oscillator.followsNote) : other = ring := by
  obtain ⟨⟨partials, output, control, _, memo, nodes, generators⟩, signals, weights, memos⟩ := ring
  obtain ⟨⟨partials', output', control', _, memo', nodes', generators'⟩, signals', weights', memos'⟩ :=
    other
  simp only [fixed, RingOscillator.mk.injEq, Oscillator.mk.injEq, true_and] at same
  obtain ⟨⟨rfl, rfl, rfl, rfl, rfl, rfl⟩, rfl, rfl, rfl⟩ := same
  cases follows
  rfl

namespace Rack.Furnished

variable {rack : Rack} {instrument : Instrument} (full : rack.Furnished instrument)
  (graph : Graph τ)

include full

theorem setOscillators {entries : List (String × Partials)}
    (listed : ∀ entry ∈ entries, instrument.oscillators.find? entry.1 = some entry.2) :
    entries.foldl (fun (rack, graph) (id, partials) =>
      rack.setOscillator instrument graph id partials) (rack, graph) = (rack, graph) := by
  induction entries with
  | nil => rfl
  | cons entry rest ih =>
    obtain ⟨ring, found, partials, signals, weights⟩ :=
      full.oscillators entry.1 entry.2 (listed entry List.mem_cons_self)
    have same : rack.setOscillator instrument graph entry.1 entry.2 = (rack, graph) := by
      rw [Racks.setOscillator_of_some instrument graph found, ← partials, ← signals, ← weights]
      exact congrArg (fun oscillators => ({ rack with oscillators }, graph))
        (Roster.insert_eq_self found)
    rw [List.foldl_cons]
    simp only [same]
    exact ih fun other mem => listed other (List.mem_cons_of_mem entry mem)

/-- Gains are turned, which nothing but their own nodes has a part in. -/
theorem setGains {entries : List (String × Float32)}
    (listed : ∀ entry ∈ entries, instrument.gains.find? entry.1 = some entry.2) :
    ∃ after, entries.foldl (fun (rack, graph) (id, factor) => rack.setGain graph id factor)
        (rack, graph) = (rack, after) ∧
      ∀ key, key ∉ rack.knobs → after.node? key = graph.node? key := by
  induction entries generalizing graph with
  | nil => exact ⟨graph, rfl, fun _ _ => rfl⟩
  | cons entry rest ih =>
    obtain ⟨stage, found, factor⟩ := full.gains entry.1 entry.2 (listed entry List.mem_cons_self)
    have same : rack.setGain graph entry.1 entry.2 =
        (rack, (graph.setValue stage.key .gain entry.2).1) := by
      rw [Racks.setGain_of_some graph found, ← factor]
      exact congrArg (fun gains =>
        ({ rack with gains }, (graph.setValue stage.key .gain stage.factor).1)) (Roster.insert_eq_self found)
    obtain ⟨after, run, kept⟩ := ih (graph.setValue stage.key .gain entry.2).1
      fun other mem => listed other (List.mem_cons_of_mem entry mem)
    refine ⟨after, ?_, fun key apart => ?_⟩
    · rw [List.foldl_cons]
      simp only [same]
      exact run
    · rw [kept key apart, Graph.node?_setValue, if_neg]
      rintro rfl
      exact apart (Rack.stage_mem_knobs found)

/-- A rack that is furnished stays as it is. -/
theorem furnish : ∃ after, rack.furnish graph instrument = (rack, after) ∧
    ∀ key, key ∉ rack.knobs → after.node? key = graph.node? key := by
  have listed {α : Type} (roster : Roster α) (entry : String × α) (mem : entry ∈ roster.entries) :
      roster.find? entry.1 = some entry.2 := Roster.find?_eq_some_iff.mpr mem
  obtain ⟨after, gains, kept⟩ := full.setGains
    (graph.logAll (instrument.sharedIds.map .idShared)) (listed instrument.gains)
  have numbers : instrument.numbers.entries.foldl
      (fun numbers (id, value) => numbers.insert id value) rack.numbers = rack.numbers := by
    refine Roster.eq_of_find? fun id => ?_
    rw [Roster.find?_foldl_insert _ instrument.numbers.names_nodup]
    cases found : instrument.numbers.entries.lookup id with
    | none => rfl
    | some value => exact (full.numbers id value found).symm
  have sources : rack.sources.insert instrument.source () = rack.sources := by
    obtain ⟨_, found⟩ := Option.isSome_iff_exists.mp full.source
    exact Roster.insert_eq_self found
  refine ⟨after, ?_, fun key apart => by rw [kept key apart, Graph.node?_logAll]⟩
  simp only [Rack.furnish, full.setOscillators _ (listed instrument.oscillators), gains,
    numbers, sources, Roster.insert_eq_self full.sink, ← full.active]

end Rack.Furnished

variable [Fourier]

namespace Racks

variable {racks : Racks} {name : String} {rack : Rack} {graph : Graph τ}
  {instrument : Instrument} {cables : List Cable}

/-- An equipped rack and all nodes stay as they are. -/
theorem Sound.equip_again (sound : racks.Sound graph) (found : racks name = some rack)
    (equipped : rack.Equipped graph instrument cables) :
    let next := racks.equip graph name instrument cables
    next.1 = rack ∧ ∀ key, next.2.node? key = graph.node? key := by
  intro next
  have is_rack : racks.rackOf name = rack := by rw [Racks.rackOf, found, Option.getD_some]
  obtain ⟨middle, furnish, kept⟩ := equipped.full.furnish graph
  have middle_sound := ((sound.rackOf name).furnish instrument)
  rw [is_rack, furnish] at middle_sound
  obtain ⟨_, _, same, middle_sound, -⟩ := middle_sound
  cases same
  obtain ⟨changed, after, patch, patched⟩ := middle_sound.patched cables
  have is_next : next = (changed, after) := by
    simp only [next, Racks.equip, is_rack, furnish, patch]
  rw [is_next]
  -- the board says again what it said
  have rings {id : String} {ring : RingOscillator} (here : rack.oscillators.find? id = some ring) :
      changed.oscillators.find? id = some ring ∧ after.node? ring.oscillator.control =
        some (.constant ((rack.board cables).levels (.control id))) := by
    have both := patched.parts.oscillators id
    rw [here, Option.map_some] at both
    obtain ⟨next, found_next, fixed⟩ := Option.map_eq_some_iff.mp both
    obtain ⟨again, found_again, level, follows⟩ :=
      patched.settled.rings id (.inl ⟨ring, ring?_set_self.trans here⟩)
    rw [ring?_set_self, found_next] at found_again
    cases found_again
    have unchanged : next = ring := RingOscillator.eq_of_fixed fixed
      (follows.trans (equipped.rings id ring here).2.symm)
    rw [unchanged] at found_next level
    exact ⟨found_next, level⟩
  constructor
  · have oscillators : changed.oscillators = rack.oscillators := by
      refine Roster.eq_of_find? fun id => ?_
      cases here : rack.oscillators.find? id with
      | some ring => exact (rings here).1
      | none =>
        have both := patched.parts.oscillators id
        rwa [here, Option.map_none, Option.map_eq_none_iff] at both
    rw [patched.parts.rest, oscillators]
  · intro key
    by_cases knob : key ∈ rack.knobs
    · rcases Rack.mem_knobs.mp knob with ⟨id, ring, here, rfl⟩ | ⟨id, stage, here, rfl⟩
      · exact (rings here).2.trans (equipped.rings id ring here).1.symm
      · obtain ⟨again, found_again, level⟩ :=
          patched.settled.stages id ⟨stage, stage?_set_self.trans here⟩
        rw [stage?_set_self, patched.parts.rest] at found_again
        obtain rfl : stage = again := Option.some.inj (here.symm.trans found_again)
        exact level.trans (equipped.stages id stage here).symm
    · exact (patched.kept key knob).trans (kept key knob)

/-! ### Several instruments -/

/-- Connections that stay when the cables of some instruments are pulled out. -/
def spared (racks : Racks) (names : List String) (c : Connection) : Bool :=
  names.all fun name => (racks name).all (·.spares c)

/-- The connections that some instruments have by their boards. -/
def plugged (racks : Racks) (cables : String → List Cable) (names : List String) :
    List Connection :=
  names.flatMap fun name => (racks name).elim [] fun rack =>
    (rack.board (cables name)).wires.map (racks.lift name)

/-- The wires of a board join sites of the instrument and are pulled out with its cables. -/
theorem Sound.ends_of_wire (sound : racks.Sound graph) (found : racks name = some rack)
    {c : Connection} (mem : c ∈ (rack.board cables).wires.map (racks.lift name)) :
    racks.Owns name c.source ∧ (c.target = Graph.destination ∨ racks.Owns name c.target) ∧
      rack.spares c = false ∧
      ∀ names, c.source ∉ racks.voices names ∧ c.target ∉ racks.voices names := by
  have same := set_eq_self found
  have sound' : (racks.set name rack).Sound graph := same.symm ▸ sound
  have legend := sound'.legend.1
  rw [same] at legend
  obtain ⟨wire, listed, rfl⟩ := List.mem_map.mp mem
  obtain ⟨from_site, speaks, to_site⟩ :=
    legend.within_of_mem_plugAll rack.factorOf cables wire listed
  refine ⟨?_, ?_, ?_, fun names =>
    ⟨sound.keyAt_not_voiced from_site names, sound.keyAt_not_voiced to_site names⟩⟩
  · refine (owns_keyAt from_site).resolve_left ?_
    intro destined
    rw [destined] at speaks
    exact speaks
  · rcases owns_keyAt to_site with destined | owned
    · exact .inl (by rw [lift, destined]; rfl)
    · exact .inr owned
  · have stands : (racks.set name rack).Stands name wire.source := same.symm ▸ from_site
    have apart := mt (apart_of_spares stands speaks (c := racks.lift name wire))
    rw [same] at apart
    simpa using apart fun differs => differs rfl

/-- What belongs to one instrument stays when the cables of others are pulled out. -/
theorem Sound.spared_of_owned (sound : racks.Sound graph) {names : List String}
    (outside : name ∉ names) {c : Connection} (source : racks.Owns name c.source)
    (target : c.target = Graph.destination ∨ racks.Owns name c.target) :
    racks.spared names c = true := by
  refine List.all_eq_true.mpr fun other listed => ?_
  cases found : racks other with
  | none => rfl
  | some rack =>
    have differs : name ≠ other := fun same => outside (same ▸ listed)
    have sound' : (racks.set other rack).Sound graph := (set_eq_self found).symm ▸ sound
    exact sound'.spares_of_foreign ⟨name, differs, source⟩
      (target.imp_right fun owned => ⟨name, differs, owned⟩)

end Racks

namespace Transport

variable {transport : Transport τ}

/-- Instruments are equipped one after another. In the end the connections of their boards stand
behind those that were not pulled out. -/
theorem Sound.equipped_each (sound : transport.Sound) (cables : String → List Cable)
    (entries : List (String × Instrument)) (once : (entries.map (·.1)).Nodup) :
    let after := entries.foldl (fun (transport : Transport τ) (name, instrument) =>
      transport.equip name instrument (cables name)) transport
    after.Sound ∧
      (∀ name instrument, (name, instrument) ∈ entries →
        ∃ rack, after.racks.find? name = some rack ∧
          rack.Equipped after.graph instrument (cables name)) ∧
      (∀ name, name ∉ entries.map (·.1) → after.racks.find? name = transport.racks.find? name ∧
        ∀ key, Racks.Owns transport.racks.find? name key →
          after.graph.node? key = transport.graph.node? key) ∧
      after.graph.connections =
        transport.graph.connections.filter (Racks.spared after.racks.find? (entries.map (·.1))) ++
          Racks.plugged after.racks.find? cables (entries.map (·.1)) := by
  induction entries generalizing transport with
  | nil =>
    have all : transport.graph.connections.filter (Racks.spared transport.racks.find? []) =
        transport.graph.connections := List.filter_eq_self.mpr fun _ _ => rfl
    exact ⟨sound, by simp, fun _ _ => ⟨rfl, fun _ _ => rfl⟩, by simp [all, Racks.plugged]⟩
  | cons entry rest ih =>
    obtain ⟨first, description⟩ := entry
    obtain ⟨absent, once⟩ := List.nodup_cons.mp once
    obtain ⟨first_sound, equipped, -, spares, connections⟩ :=
      Racks.Sound.equipped sound first description (cables first)
    obtain ⟨next, is_next⟩ : ∃ next, next = Racks.equip transport.racks.find? transport.graph first
      description (cables first) := ⟨_, rfl⟩
    rw [← is_next] at first_sound equipped spares connections
    have racks : (transport.equip first description (cables first)).racks.find? =
        Racks.set transport.racks.find? first next.1 := by
      rw [is_next]
      exact Racks.find?_insert ..
    have graph : (transport.equip first description (cables first)).graph = next.2 := by
      rw [is_next]
      rfl
    have middle_sound : (transport.equip first description (cables first)).Sound := by
      unfold Transport.Sound
      rwa [racks, graph]
    obtain ⟨after_sound, listed, others, after_connections⟩ := ih middle_sound once
    rw [List.foldl_cons]
    obtain ⟨after, is_after⟩ : ∃ after, after = rest.foldl (fun (transport : Transport τ)
        (name, instrument) => transport.equip name instrument (cables name))
          (transport.equip first description (cables first)) := ⟨_, rfl⟩
    rw [← is_after] at after_sound listed others after_connections ⊢
    obtain ⟨here, kept⟩ := others first absent
    rw [racks, Racks.set_self] at here
    rw [racks, graph] at kept
    refine ⟨after_sound, ?_, ?_, ?_⟩
    · intro name instrument mem
      rcases List.mem_cons.mp mem with same | later
      · cases same
        refine ⟨next.1, here, equipped.congr fun key knob => kept key ?_⟩
        exact Racks.owns_knob Racks.set_self knob
      · exact listed name instrument later
    · intro name outside
      simp only [List.map_cons, List.mem_cons, not_or] at outside
      obtain ⟨stays, nodes⟩ := others name outside.2
      rw [racks, Racks.set_of_ne outside.1] at stays
      refine ⟨stays, fun key owned => ?_⟩
      rw [nodes key (by rwa [racks, Racks.owns_set_of_ne outside.1]), graph,
        spares name key outside.1 owned]
    · have keys : Racks.keyAt after.racks.find? first =
          Racks.keyAt (Racks.set transport.racks.find? first next.1) first :=
        Racks.keyAt_sameFrame Racks.set_self here (.refl next.1)
      rw [after_connections, graph, connections, ← Racks.lift_congr keys, List.filter_append,
        List.filter_filter]
      have stay : ((next.1.board (cables first)).wires.map
          (Racks.lift after.racks.find? first)).filter
            (Racks.spared after.racks.find? (rest.map (·.1))) =
          (next.1.board (cables first)).wires.map (Racks.lift after.racks.find? first) := by
        refine List.filter_eq_self.mpr fun c mem => ?_
        obtain ⟨source, target, -⟩ := Racks.Sound.ends_of_wire after_sound here mem
        exact Racks.Sound.spared_of_owned after_sound absent source target
      rw [stay, List.append_assoc]
      congr 1
      · refine List.filter_congr fun c _ => ?_
        simp [Racks.spared, here, Bool.and_comm]
      · simp [Racks.plugged, here]

/-- Where instruments are equipped already, their racks and all nodes stay as they are. -/
theorem Sound.equip_each_again (sound : transport.Sound) (cables : String → List Cable)
    {entries : List (String × Instrument)}
    (equipped : ∀ name instrument, (name, instrument) ∈ entries →
      ∃ rack, transport.racks.find? name = some rack ∧
        rack.Equipped transport.graph instrument (cables name)) :
    let after := entries.foldl (fun (transport : Transport τ) (name, instrument) =>
      transport.equip name instrument (cables name)) transport
    after.racks.find? = transport.racks.find? ∧
      ∀ key, after.graph.node? key = transport.graph.node? key := by
  induction entries generalizing transport with
  | nil => exact ⟨rfl, fun _ => rfl⟩
  | cons entry rest ih =>
    obtain ⟨first, description⟩ := entry
    obtain ⟨rack, found, here⟩ := equipped first description List.mem_cons_self
    obtain ⟨same, kept⟩ := Racks.Sound.equip_again sound found here
    have racks : (transport.equip first description (cables first)).racks.find? =
        transport.racks.find? := by
      show (transport.racks.insert first (Racks.equip transport.racks.find? transport.graph first
        description (cables first)).1).find? = _
      rw [Racks.find?_insert, same, Racks.set_eq_self found]
    have nodes (key : NodeKey) : (transport.equip first description (cables first)).graph.node? key =
        transport.graph.node? key := kept key
    obtain ⟨_, _, -, middle_sound, -⟩ := sound.equip first description (cables first)
    obtain ⟨racks', nodes'⟩ := ih middle_sound fun name instrument later => by
      obtain ⟨rack, found, here⟩ := equipped name instrument (List.mem_cons_of_mem _ later)
      exact ⟨rack, by rw [racks, found], here.congr fun key _ => nodes key⟩
    exact ⟨racks'.trans racks, fun key => (nodes' key).trans (nodes key)⟩

end Transport

/-- The instruments of a project stand as it asks for. -/
def Racks.Equips (racks : Racks) (graph : Graph τ) (project : Project τ) : Prop :=
  ∀ name instrument, project.instruments.find? name = some instrument →
    ∃ rack, racks name = some rack ∧ rack.Equipped graph instrument (project.cablesOf name)

namespace Transport

variable {transport : Transport τ}

/-- All instruments of a project are equipped, and the connections of their boards come last. -/
theorem Sound.equips_equipAll (sound : transport.Sound) (project : Project τ) :
    let after := transport.equipAll project
    let names := project.instruments.names
    after.Sound ∧ Racks.Equips after.racks.find? after.graph project ∧
      after.graph.connections =
        transport.graph.connections.filter (Racks.spared after.racks.find? names) ++
          Racks.plugged after.racks.find? project.cablesOf names := by
  obtain ⟨after_sound, equipped, -, connections⟩ :=
    sound.equipped_each project.cablesOf project.instruments.entries project.instruments.names_nodup
  exact ⟨after_sound, fun name instrument found =>
    equipped name instrument (Roster.find?_eq_some_iff.mp found), connections⟩

/-- To equip them again changes nothing but the order of connections. -/
theorem Sound.equipAll_again (sound : transport.Sound) {project : Project τ}
    (equips : Racks.Equips transport.racks.find? transport.graph project) :
    let after := transport.equipAll project
    let names := project.instruments.names
    after.racks.find? = transport.racks.find? ∧
      (∀ key, after.graph.node? key = transport.graph.node? key) ∧
      after.graph.connections =
        transport.graph.connections.filter (Racks.spared transport.racks.find? names) ++
          Racks.plugged transport.racks.find? project.cablesOf names := by
  intro after names
  obtain ⟨racks, nodes⟩ := sound.equip_each_again project.cablesOf
    fun name instrument entry => equips name instrument (Roster.find?_eq_some_iff.mpr entry)
  obtain ⟨-, -, connections⟩ := sound.equips_equipAll project
  have racks : after.racks.find? = transport.racks.find? := racks
  refine ⟨racks, nodes, ?_⟩
  rw [← racks]
  exact connections

end Transport

end Patchbay
