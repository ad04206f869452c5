import Patchbay.Proofs.Band.Bands

/-!
# Instruments in lockstep

An instrument of a band is equipped in the same way in both graphs: parts that it has are set anew,
parts that it lacks are made on new nodes, and its cables are plugged in. This keeps the graphs alike
for the band.
-/
namespace Patchbay

variable {τ : Type}

/-- Keep a renaming up to a key, and move all keys from there on. -/
def extend (f : NodeKey → NodeKey) (size size' : Nat) (key : NodeKey) : NodeKey :=
  if key < size then f key else size' + (key - size)

theorem extend_of_lt {f : NodeKey → NodeKey} {size key : Nat} (lt : key < size) (size' : Nat) :
    extend f size size' key = f key :=
  if_pos lt

@[simp] theorem extend_add (f : NodeKey → NodeKey) (size size' i : Nat) :
    extend f size size' (size + i) = size' + i := by
  unfold extend
  rw [if_neg (Nat.not_lt.mpr (Nat.le_add_right size i)), Nat.add_sub_cancel_left]

@[simp] theorem extend_self (f : NodeKey → NodeKey) (size size' : Nat) :
    extend f size size' size = size' :=
  extend_add f size size' 0

theorem shifts_extend (f : NodeKey → NodeKey) (size size' : Nat) :
    Shifts (extend f size size') size := fun distance => by
  rw [extend_add, extend_self]

theorem Node.unnumbered_setValue (node : Node τ) (knob : Knob) (value : Float32) :
    ((node.setValue? knob value).getD node).unnumbered =
      (node.unnumbered.setValue? knob value).getD node.unnumbered := by
  cases node <;> cases knob <;> rfl

theorem RingOscillator.Twin.of_fixed {f : NodeKey → NodeKey} {ring ring' next next' : RingOscillator}
    (twin : ring.Twin f ring') (same : next.fixed = ring.fixed) (same' : next'.fixed = ring'.fixed)
    (follows : next'.oscillator.followsNote = next.oscillator.followsNote) :
    next.Twin f next' := by
  obtain ⟨⟨partials, output, control, _, memo, nodes, generators⟩, signals, weights, memos⟩ := next
  obtain ⟨⟨partials', output', control', _, memo', nodes', generators'⟩, signals', weights', memos'⟩ :=
    next'
  simp only [fixed, RingOscillator.mk.injEq, Oscillator.mk.injEq, true_and] at same same'
  obtain ⟨⟨rfl, rfl, rfl, rfl, rfl, rfl⟩, rfl, rfl, rfl⟩ := same
  obtain ⟨⟨rfl, rfl, rfl, rfl, rfl, rfl⟩, rfl, rfl, rfl⟩ := same'
  exact ⟨⟨twin.partials, follows, twin.signals, twin.weights, twin.output, twin.control, twin.nodes,
    twin.generators⟩, twin.memory⟩

namespace Racks

variable [Fourier] {band : String → Prop} {f : NodeKey → NodeKey} {racks racks' : Racks}
  {graph after graph' after' : Graph τ} {name : String} {rack rack' changed changed' : Rack}

namespace Alike

theorem reported (alike : Alike band f racks graph racks' graph') (h : graph.Reported after)
    (h' : graph'.Reported after') : Alike band f racks after racks' after' := by
  have sound := alike.sound.reported h
  have sound' := alike.sound'.reported h'
  obtain ⟨waves, journal, rfl⟩ := h
  obtain ⟨waves', journal', rfl⟩ := h'
  exact ⟨sound, sound', alike.clock, alike.destination, alike.rings, alike.stages, alike.labels,
    alike.nodes, alike.wiring⟩

section One

variable (alike : Alike band f (racks.set name rack) graph (racks'.set name rack') graph')
  (member : band name)

include alike member

theorem ring_self (id : String) :
    Option.Rel (RingOscillator.Twin f) (rack.oscillators.find? id) (rack'.oscillators.find? id) := by
  have both := alike.rings name member id
  rwa [ring?_set_self, ring?_set_self] at both

theorem stage_self (id : String) :
    rack'.gains.find? id = (rack.gains.find? id).map (GainStage.map f) := by
  have both := alike.stages name member id
  rwa [stage?_set_self, stage?_set_self] at both

theorem labels_self : rack'.labels = rack.labels := by
  have both := alike.labels name member
  rw [set_self, set_self] at both
  exact Option.some.inj both

/-- Nodes are added in both graphs. -/
theorem grow {nodes : List (Node τ)} (grown : graph.Grown after nodes [])
    (grown' : graph'.Grown after' nodes [])
    (sound : (racks.set name changed).Sound after)
    (sound' : (racks'.set name changed').Sound after')
    (rings : ∀ id, Option.Rel
      (RingOscillator.Twin (extend f graph.nodes.size graph'.nodes.size))
      (changed.oscillators.find? id) (changed'.oscillators.find? id))
    (stages : ∀ id, changed'.gains.find? id = (changed.gains.find? id).map
      (GainStage.map (extend f graph.nodes.size graph'.nodes.size)))
    (labels : changed'.labels = changed.labels) :
    Alike band (extend f graph.nodes.size graph'.nodes.size) (racks.set name changed) after
      (racks'.set name changed') after' := by
  have connections : after.connections = graph.connections.filter (fun _ => true) ++ [] := by
    simpa using grown.connections
  have connections' : after'.connections = graph'.connections.filter (fun _ => true) ++
      [].map (Connection.map (extend f graph.nodes.size graph'.nodes.size)) := by
    simpa using grown'.connections
  refine alike.set sound sound' grown.clock grown'.clock (fun key lt => extend_of_lt lt _)
    (fun other key differs owned => ?_) (fun other key differs owned => ?_) rings stages labels
    (fun key owned => ?_) connections connections' (fun _ _ => rfl) (by simp) (by simp) member
  · exact grown.node?_of_lt (alike.sound.lt_size ((owns_set_of_ne differs rack key).mpr owned))
  · exact grown'.node?_of_lt (alike.sound'.lt_size ((owns_set_of_ne differs rack' key).mpr owned))
  · by_cases old : key < graph.nodes.size
    · have stays := grown.node?_of_lt old
      have alive : graph.contains key := by
        have lives := sound.contains_of_owns owned
        rwa [Graph.contains, stays] at lives
      have owned := sound.stays_set alike.sound name key owned alive
      rw [stays, extend_of_lt old,
        grown'.node?_of_lt (alike.sound'.lt_size (alike.owns member owned))]
      exact alike.nodes key ⟨name, member, owned⟩
    · obtain ⟨i, rfl⟩ := Nat.exists_eq_add_of_le (Nat.not_lt.mp old)
      rw [extend_add, grown.node?_new, grown'.node?_new]

/-- Oscillators are the same under a renaming that moves what is to come. -/
theorem ring_extended (id : String) :
    Option.Rel (RingOscillator.Twin (extend f graph.nodes.size graph'.nodes.size))
      (rack.oscillators.find? id) (rack'.oscillators.find? id) := by
  have both := alike.rings_congr (fun key lt => extend_of_lt lt graph'.nodes.size) member id
  rwa [ring?_set_self, ring?_set_self] at both

theorem stage_extended (id : String) :
    rack'.gains.find? id = (rack.gains.find? id).map
      (GainStage.map (extend f graph.nodes.size graph'.nodes.size)) := by
  have both := alike.stages_congr (fun key lt => extend_of_lt lt graph'.nodes.size) member id
  rwa [stage?_set_self, stage?_set_self] at both

omit alike member in
omit [Fourier] in
theorem rel_putOscillator {id : String} {ring ring' : RingOscillator} (twin : ring.Twin f ring')
    (others : ∀ id, Option.Rel (RingOscillator.Twin f) (rack.oscillators.find? id)
      (rack'.oscillators.find? id)) (other : String) :
    Option.Rel (RingOscillator.Twin f) ((rack.putOscillator id ring).oscillators.find? other)
      ((rack'.putOscillator id ring').oscillators.find? other) := by
  simp only [Rack.putOscillator, Roster.find?_insert]
  split
  · exact .some twin
  · exact others other

omit alike member in
omit [Fourier] in
theorem map_putGain {id : String} {stage stage' : GainStage} (same : stage' = stage.map f)
    (others : ∀ id, rack'.gains.find? id = (rack.gains.find? id).map (GainStage.map f))
    (other : String) : (rack'.putGain id stage').gains.find? other =
      ((rack.putGain id stage).gains.find? other).map (GainStage.map f) := by
  simp only [Rack.putGain, Roster.find?_insert]
  split
  · rw [same, Option.map_some]
  · exact others other

/-- An oscillator is set in both graphs. -/
theorem setOscillator (instrument : Instrument) (id : String) (partials : Partials) :
    let next := rack.setOscillator instrument graph id partials
    let next' := rack'.setOscillator instrument graph' id partials
    Alike band (extend f graph.nodes.size graph'.nodes.size) (racks.set name next.1) next.2
      (racks'.set name next'.1) next'.2 := by
  have rings := alike.ring_extended member
  have stages := alike.stage_extended member
  have labels := alike.labels_self member
  have here := rings id
  cases found : rack.oscillators.find? id <;> cases found' : rack'.oscillators.find? id <;>
    rw [found, found'] at here <;> cases here
  · obtain ⟨after, set, grown⟩ := setOscillator_of_none instrument graph
      alike.sound.wellFormed found partials
    obtain ⟨after', set', grown'⟩ := setOscillator_of_none instrument graph'
      alike.sound'.wellFormed found' partials
    rw [set, set']
    refine alike.grow member grown grown' (alike.sound.addRing found grown rfl rfl rfl rfl ?_)
      (alike.sound'.addRing found' grown' rfl rfl rfl rfl ?_) (rel_putOscillator ?_ rings) stages
      labels
    · rintro memo (same | mem)
      · cases same
      · cases mem
    · rintro memo (same | mem)
      · cases same
      · cases mem
    · constructor
      case memory => rfl
      case toAlike =>
        constructor <;> simp [Oscillator.around]
  · rename_i ring ring' twin
    rw [setOscillator_of_some instrument graph found partials,
      setOscillator_of_some instrument graph' found' partials]
    refine alike.grow member ((Graph.Reported.refl graph).grown alike.sound.wellFormed)
      ((Graph.Reported.refl graph').grown alike.sound'.wellFormed) (alike.sound.retune found rfl)
      (alike.sound'.retune found' rfl) (rel_putOscillator ?_ rings) stages labels
    exact ⟨⟨rfl, twin.follows, rfl, rfl, twin.output, twin.control, twin.nodes, twin.generators⟩,
      twin.memory⟩

omit member in
/-- Knobs of the same node are turned to the same value. -/
theorem node?_setValue {key : NodeKey} (owned : (racks.set name rack).Holds band key) (knob : Knob)
    (value : Float32) {other : NodeKey} (held : (racks.set name rack).Holds band other) :
    ((graph'.setValue (f key) knob value).1.node? (f other)).map Node.unnumbered =
      ((graph.setValue key knob value).1.node? other).map Node.unnumbered := by
  have same : f other = f key ↔ other = key := ⟨alike.injective held owned, congrArg f⟩
  have before := alike.nodes key owned
  rw [Graph.node?_setValue, Graph.node?_setValue]
  by_cases here : other = key
  · rw [if_pos here, if_pos (same.mpr here)]
    cases found : graph.node? key with
    | none =>
      rw [found] at before
      rw [Option.map_eq_none_iff.mp before]
    | some node =>
      rw [found] at before
      obtain ⟨node', found', unnumbered⟩ := Option.map_eq_some_iff.mp before
      rw [found', Option.map_some, Option.map_some, Option.map_some, Option.map_some,
        Node.unnumbered_setValue, Node.unnumbered_setValue, unnumbered]
  · rw [if_neg here, if_neg (mt same.mp here)]
    exact alike.nodes other held

/-- A gain that is there is turned in both graphs. -/
theorem turnGain {id : String} {stage : GainStage} (found : rack.gains.find? id = some stage)
    (factor : Float32) :
    Alike band f (racks.set name (rack.putGain id ⟨stage.key, factor⟩))
      (graph.setValue stage.key .gain factor).1
      (racks'.set name (rack'.putGain id ⟨f stage.key, factor⟩))
      (graph'.setValue (f stage.key) .gain factor).1 := by
  have found' : rack'.gains.find? id = some (stage.map f) := by
    rw [alike.stage_self member id, found, Option.map_some]
  obtain ⟨sound, spares⟩ := alike.sound.turnGain found factor
  obtain ⟨sound', spares'⟩ := alike.sound'.turnGain found' factor
  have connections : (graph.setValue stage.key .gain factor).1.connections =
      graph.connections.filter (fun _ => true) ++ [] := by simp
  have connections' : (graph'.setValue (f stage.key) .gain factor).1.connections =
      graph'.connections.filter (fun _ => true) ++ [].map (Connection.map f) := by simp
  have owned : (racks.set name rack).Owns name stage.key :=
    owns_stage (stage?_set_self.trans found)
  refine alike.set sound sound' (by simp) (by simp) (fun _ _ => rfl) spares spares'
    (alike.ring_self member) (map_putGain rfl (alike.stage_self member))
    (alike.labels_self member) (fun key mine => ?_) connections connections' (fun _ _ => rfl)
    (by simp) (by simp) member
  refine alike.node?_setValue ⟨name, member, owned⟩ .gain factor ⟨name, member, ?_⟩
  have alive := sound.contains_of_owns mine
  rw [Graph.contains_eq_isSome_kind?, Graph.kind?_setValue,
    ← Graph.contains_eq_isSome_kind?] at alive
  exact sound.stays_set alike.sound name key mine alive

/-- A gain is set in both graphs. -/
theorem setGain (id : String) (factor : Float32) :
    ∃ g, Alike band g (racks.set name (rack.setGain graph id factor).1)
      (rack.setGain graph id factor).2 (racks'.set name (rack'.setGain graph' id factor).1)
      (rack'.setGain graph' id factor).2 := by
  cases found : rack.gains.find? id with
  | some stage =>
    have found' : rack'.gains.find? id = some (stage.map f) := by
      rw [alike.stage_self member id, found, Option.map_some]
    rw [setGain_of_some graph found, setGain_of_some graph' found']
    exact ⟨f, alike.turnGain member found factor⟩
  | none =>
    have found' : rack'.gains.find? id = none := by
      rw [alike.stage_self member id, found, Option.map_none]
    rw [setGain_of_none graph found, setGain_of_none graph' found']
    have kind : (Node.gain factor : Node τ).kind ≠ .destination := by simp [Node.kind]
    exact ⟨_, alike.grow member (graph.grown_add alike.sound.wellFormed _ kind)
      (graph'.grown_add alike.sound'.wellFormed _ kind) (alike.sound.addGain found factor).1
      (alike.sound'.addGain found' factor).1 (alike.ring_extended member)
      (map_putGain (by simp [GainStage.map]) (alike.stage_extended member))
      (alike.labels_self member)⟩

/-! ### A whole description -/

theorem setOscillators (instrument : Instrument) (entries : List (String × Partials)) :
    let run (start : Rack × Graph τ) := entries.foldl (fun (rack, graph) (id, partials) =>
      rack.setOscillator instrument graph id partials) start
    ∃ g, Alike band g (racks.set name (run (rack, graph)).1) (run (rack, graph)).2
      (racks'.set name (run (rack', graph')).1) (run (rack', graph')).2 := by
  induction entries generalizing f rack graph rack' graph' with
  | nil => exact ⟨f, alike⟩
  | cons entry rest ih => exact ih (alike.setOscillator member instrument entry.1 entry.2)

theorem setGains (entries : List (String × Float32)) :
    let run (start : Rack × Graph τ) := entries.foldl (fun (rack, graph) (id, factor) =>
      rack.setGain graph id factor) start
    ∃ g, Alike band g (racks.set name (run (rack, graph)).1) (run (rack, graph)).2
      (racks'.set name (run (rack', graph')).1) (run (rack', graph')).2 := by
  induction entries generalizing f rack graph rack' graph' with
  | nil => exact ⟨f, alike⟩
  | cons entry rest ih =>
    obtain ⟨g, next⟩ := alike.setGain member entry.1 entry.2
    exact ih next

/-- Parts that have no nodes are set in both graphs. -/
theorem relabel (relabeled : Rack → Rack)
    (oscillators : ∀ rack, (relabeled rack).oscillators = rack.oscillators)
    (gains : ∀ rack, (relabeled rack).gains = rack.gains)
    (labels : ∀ rack, (relabeled rack).labels = (relabeled rack.labels).labels)
    (sound : (racks.set name (relabeled rack)).Sound graph)
    (sound' : (racks'.set name (relabeled rack')).Sound graph') :
    Alike band f (racks.set name (relabeled rack)) graph (racks'.set name (relabeled rack'))
      graph' := by
  have connections : graph.connections = graph.connections.filter (fun _ => true) ++ [] := by simp
  have connections' : graph'.connections = graph'.connections.filter (fun _ => true) ++
      [].map (Connection.map f) := by simp
  refine alike.set sound sound' rfl rfl (fun _ _ => rfl) (fun _ _ _ _ => rfl) (fun _ _ _ _ => rfl)
    (fun id => ?_) (fun id => ?_) ?_ (fun key owned => ?_) connections connections' (fun _ _ => rfl)
    (by simp) (by simp) member
  · rw [oscillators, oscillators]
    exact alike.ring_self member id
  · rw [gains, gains]
    exact alike.stage_self member id
  · rw [labels rack', labels rack, alike.labels_self member]
  · exact alike.nodes key ⟨name, member,
      sound.stays_set alike.sound name key owned (sound.contains_of_owns owned)⟩

/-- A rack of the band is furnished in both graphs. -/
theorem furnish (instrument : Instrument) :
    ∃ g, Alike band g (racks.set name (rack.furnish graph instrument).1)
      (rack.furnish graph instrument).2 (racks'.set name (rack'.furnish graph' instrument).1)
      (rack'.furnish graph' instrument).2 := by
  obtain ⟨changed, after, run, sound, -⟩ := alike.sound.furnish instrument
  obtain ⟨changed', after', run', sound', -⟩ := alike.sound'.furnish instrument
  have told := alike.reported (graph.reported_logAll (instrument.sharedIds.map .idShared))
    (graph'.reported_logAll (instrument.sharedIds.map .idShared))
  obtain ⟨_, voiced⟩ := told.setOscillators member instrument instrument.oscillators.entries
  obtain ⟨g, staged⟩ := voiced.setGains member instrument.gains.entries
  have sound : (racks.set name (rack.furnish graph instrument).1).Sound
      (rack.furnish graph instrument).2 := by
    rw [run]
    exact sound
  have sound' : (racks'.set name (rack'.furnish graph' instrument).1).Sound
      (rack'.furnish graph' instrument).2 := by
    rw [run']
    exact sound'
  exact ⟨g, staged.relabel member (fun rack => { rack with
      numbers := instrument.numbers.entries.foldl
        (fun numbers (id, value) => numbers.insert id value) rack.numbers
      sources := rack.sources.insert instrument.source ()
      sinks := rack.sinks.insert instrument.sink Graph.destination
      active := instrument.oscillators.names })
    (fun _ => rfl) (fun _ => rfl) (fun _ => rfl) sound sound'⟩

/-! ### Cables -/

theorem ring_back {id : String} {ring' : RingOscillator}
    (found' : rack'.oscillators.find? id = some ring') :
    ∃ ring, rack.oscillators.find? id = some ring ∧ ring.Twin f ring' := by
  have both := alike.ring_self member id
  rw [found'] at both
  cases found : rack.oscillators.find? id <;> rw [found] at both <;> cases both
  rename_i ring twin
  exact ⟨ring, rfl, twin⟩

/-- The same connections are pulled out with the cables of a rack. -/
theorem spares_map {c : Connection} (mem : c ∈ (racks.set name rack).wiring band graph) :
    rack'.spares (c.map f) = rack.spares c := by
  have holds {key : NodeKey} (owned : (racks.set name rack).Owns name key) :
      (racks.set name rack).Holds band key := ⟨name, member, owned⟩
  have source {key : NodeKey} (owned : (racks.set name rack).Owns name key) :
      (c.map f).source = f key ↔ c.source = key :=
    ⟨alike.injective (mem_wiring.mp mem).2 (holds owned), congrArg f⟩
  have target {key : NodeKey} (owned : (racks.set name rack).Owns name key) :
      (c.map f).target = f key ↔ c.target = key := by
    refine ⟨fun same => ?_, congrArg f⟩
    rcases alike.sound.target_of_mem_wiring mem with destined | held
    · have image : f c.target = f key := same
      rw [destined, alike.destination] at image
      exact absurd image.symm (alike.sound'.owned_ne_destination (alike.owns member owned))
    · exact alike.injective held (holds owned) same
  have inlet : (c.map f).inlet = c.inlet := rfl
  rw [Bool.eq_iff_iff, Rack.spares_iff, Rack.spares_iff]
  refine and_congr (forall_congr' fun id => ?_) (forall_congr' fun id => ?_)
  · have both := alike.ring_self member id
    cases found : rack.oscillators.find? id <;> cases found' : rack'.oscillators.find? id <;>
      rw [found, found'] at both <;> cases both
    · simp
    · rename_i ring ring' twin
      have here : (racks.set name rack).ring? name id = some ring := ring?_set_self.trans found
      simp only [Option.some.injEq, forall_eq', twin.output, twin.control, inlet, ne_eq,
        source (owns_ring here ring.output_mem_keys),
        target (owns_ring here ring.control_mem_keys)]
  · rw [alike.stage_self member id]
    cases found : rack.gains.find? id with
    | none => simp
    | some stage =>
      have here : (racks.set name rack).stage? name id = some stage := stage?_set_self.trans found
      simp only [Option.map_some, Option.some.injEq, forall_eq', GainStage.map, ne_eq,
        source (owns_stage here)]

/-- The sites of a rack have the same nodes under other keys. -/
theorem keyAt {site : Site} (stands : (racks.set name rack).Stands name site) :
    (racks'.set name rack').keyAt name site = f ((racks.set name rack).keyAt name site) := by
  cases site with
  | output id =>
    obtain ⟨ring, found⟩ := stands
    obtain ⟨ring', found', twin⟩ := alike.ring member found
    rw [keyAt_output found, keyAt_output found', twin.output]
  | control id =>
    obtain ⟨ring, found⟩ := stands
    obtain ⟨ring', found', twin⟩ := alike.ring member found
    rw [keyAt_control found, keyAt_control found', twin.control]
  | stage id =>
    obtain ⟨stage, found⟩ := stands
    have found' := alike.stages name member id
    rw [found] at found'
    rw [keyAt_stage found, keyAt_stage found']
    rfl
  | destination => exact alike.destination.symm

/-- The same cables make the same board. -/
theorem board_eq (cables : List Cable) : rack'.board cables = rack.board cables := by
  have labels := alike.labels_self member
  refine Rack.board_congr (fun id => ?_) (fun id => ?_) (congrArg (·.numbers) labels)
    (congrArg (·.sources) labels) (congrArg (·.sinks) labels) cables
  · have both := alike.ring_self member id
    unfold Roster.contains
    cases found : rack.oscillators.find? id <;> cases found' : rack'.oscillators.find? id <;>
      rw [found, found'] at both <;> cases both
    all_goals rfl
  · rw [alike.stage_self member id, Option.map_map]
    rfl

/-- The wires of the board are the same connections under other keys. -/
theorem lift_board (cables : List Cable) :
    (rack'.board cables).wires.map ((racks'.set name rack').lift name) =
      ((rack.board cables).wires.map ((racks.set name rack).lift name)).map (Connection.map f) := by
  rw [alike.board_eq member, List.map_map]
  refine List.map_congr_left fun wire listed => ?_
  obtain ⟨from_site, -, to_site⟩ :=
    alike.sound.legend.1.within_of_mem_plugAll rack.factorOf cables wire listed
  simp only [lift, Function.comp_apply, Connection.map, alike.keyAt member from_site,
    alike.keyAt member to_site]

/-- Oscillators of a patched rack are the same under other keys. -/
theorem ring_patched {cables : List Cable}
    (patched : Patched racks name rack graph cables changed after)
    (patched' : Patched racks' name rack' graph' cables changed' after') (id : String) :
    Option.Rel (RingOscillator.Twin f) (changed.oscillators.find? id)
      (changed'.oscillators.find? id) := by
  have both := alike.ring_self member id
  have same := patched.parts.oscillators id
  have same' := patched'.parts.oscillators id
  cases found : rack.oscillators.find? id <;> cases found' : rack'.oscillators.find? id <;>
    rw [found, found'] at both <;> cases both
  · rw [found] at same
    rw [found'] at same'
    rw [Option.map_eq_none_iff.mp same, Option.map_eq_none_iff.mp same']
    exact .none
  · rename_i ring ring' twin
    rw [found] at same
    rw [found'] at same'
    obtain ⟨next, found_next, fixed⟩ := Option.map_eq_some_iff.mp same
    obtain ⟨next', found_next', fixed'⟩ := Option.map_eq_some_iff.mp same'
    -- whether notes are followed hangs on the board
    obtain ⟨again, found_again, -, follows⟩ :=
      patched.settled.rings id (.inl ⟨ring, ring?_set_self.trans found⟩)
    obtain ⟨again', found_again', -, follows'⟩ :=
      patched'.settled.rings id (.inl ⟨ring', ring?_set_self.trans found'⟩)
    rw [ring?_set_self, found_next] at found_again
    rw [ring?_set_self, found_next'] at found_again'
    cases found_again
    cases found_again'
    rw [found_next, found_next']
    exact .some (twin.of_fixed fixed fixed'
      (follows'.trans ((congrArg (·.follows id) (alike.board_eq member cables)).trans follows.symm)))

/-- Frequency controls and gains stand as the board says in both graphs. -/
theorem knob_patched {cables : List Cable}
    (patched : Patched racks name rack graph cables changed after)
    (patched' : Patched racks' name rack' graph' cables changed' after') {key : NodeKey}
    (knob : key ∈ rack.knobs) : after'.node? (f key) = after.node? key := by
  have board := alike.board_eq member cables
  rcases Rack.mem_knobs.mp knob with ⟨id, ring, found, rfl⟩ | ⟨id, stage, found, rfl⟩
  · obtain ⟨ring', found', twin⟩ := alike.ring member (ring?_set_self.trans found)
    have stands : (racks.set name rack).Stands name (.control id) :=
      ⟨ring, ring?_set_self.trans found⟩
    obtain ⟨next, found_next, level, -⟩ := patched.settled.rings id (.inr stands)
    obtain ⟨next', found_next', level', -⟩ := patched'.settled.rings id (.inr ⟨ring', found'⟩)
    have control : next.oscillator.control = ring.oscillator.control := by
      have same := patched.parts.oscillators id
      rw [ring?_set_self] at found_next
      rw [found, found_next] at same
      exact congrArg (·.oscillator.control) (Option.some.inj same)
    have control' : next'.oscillator.control = ring'.oscillator.control := by
      have same := patched'.parts.oscillators id
      rw [ring?_set_self] at found_next' found'
      rw [found', found_next'] at same
      exact congrArg (·.oscillator.control) (Option.some.inj same)
    rw [← twin.control, ← control, ← control', level, level', board]
  · have found' : rack'.gains.find? id = some (stage.map f) := by
      rw [alike.stage_self member id, found, Option.map_some]
    obtain ⟨next, found_next, level⟩ :=
      patched.settled.stages id ⟨stage, stage?_set_self.trans found⟩
    obtain ⟨next', found_next', level'⟩ :=
      patched'.settled.stages id ⟨stage.map f, stage?_set_self.trans found'⟩
    rw [stage?_set_self, patched.parts.rest] at found_next
    rw [stage?_set_self, patched'.parts.rest] at found_next'
    obtain rfl : stage = next := Option.some.inj (found.symm.trans found_next)
    obtain rfl : stage.map f = next' := Option.some.inj (found'.symm.trans found_next')
    rw [level, ← board]
    exact level'

/-- Whatever is no knob in the one rack is none in the other. -/
theorem knob_back {key : NodeKey} (held : (racks.set name rack).Holds band key)
    (knob : f key ∈ rack'.knobs) : key ∈ rack.knobs := by
  rcases Rack.mem_knobs.mp knob with ⟨id, ring', found', same⟩ | ⟨id, stage', found', same⟩
  · obtain ⟨ring, found, twin⟩ := alike.ring_back member found'
    have here : (racks.set name rack).ring? name id = some ring := ring?_set_self.trans found
    rw [twin.control] at same
    rw [← alike.injective ⟨name, member, owns_ring here ring.control_mem_keys⟩ held same]
    exact Rack.control_mem_knobs found
  · rw [alike.stage_self member id] at found'
    obtain ⟨stage, found, rfl⟩ := Option.map_eq_some_iff.mp found'
    have here : (racks.set name rack).stage? name id = some stage := stage?_set_self.trans found
    rw [← alike.injective ⟨name, member, owns_stage here⟩ held same]
    exact Rack.stage_mem_knobs found

/-- A rack of the band is patched in both graphs. -/
theorem patch {cables : List Cable}
    (patched : Patched racks name rack graph cables changed after)
    (patched' : Patched racks' name rack' graph' cables changed' after') :
    Alike band f (racks.set name changed) after (racks'.set name changed') after' := by
  have connections' := patched'.connections
  rw [alike.lift_board member cables] at connections'
  refine alike.set patched.sound patched'.sound patched.clock patched'.clock (fun _ _ => rfl)
    patched.spares patched'.spares (alike.ring_patched member patched patched') (fun id => ?_) ?_
    (fun key owned => ?_) patched.connections connections'
    (fun c mem => alike.spares_map member mem) (fun c mem => patched.owns alike.sound mem)
    (fun c mem => ?_) member
  · rw [patched.parts.rest, patched'.parts.rest]
    exact alike.stage_self member id
  · rw [patched.parts.rest, patched'.parts.rest]
    exact alike.labels_self member
  · by_cases knob : key ∈ rack.knobs
    · rw [alike.knob_patched member patched patched' knob]
    · have kept := patched.kept key knob
      have alive : graph.contains key := by
        have lives := patched.sound.contains_of_owns owned
        rwa [Graph.contains, kept] at lives
      have held : (racks.set name rack).Holds band key :=
        ⟨name, member, patched.sound.stays_set alike.sound name key owned alive⟩
      rw [kept, patched'.kept _ (mt (alike.knob_back member held) knob)]
      exact alike.nodes key held
  · have image : c.map f ∈ ((rack'.board cables).wires.map ((racks'.set name rack').lift name)) := by
      rw [alike.lift_board member cables]
      exact List.mem_map_of_mem mem
    exact patched'.owns alike.sound' image

end One

end Alike

end Racks

end Patchbay
