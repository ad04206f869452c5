import Patchbay.Proofs.Rack.Board

/-!
# Racks realize boards

A rack that holds the parts of an instrument, each id in one role, is patched as the board of the
instrument says, whatever else it holds. What other racks wire is left as it is.
-/
namespace Patchbay

variable {τ : Type}

/-! ### Roles -/

theorem Instrument.mem_ids {instrument : Instrument} {id : String} :
    id ∈ instrument.ids ↔ ∃ role, instrument.HasRole id role := by
  simp only [ids, List.mem_append, List.mem_cons, List.not_mem_nil, or_false,
    ← Roster.contains_iff_mem_names]
  constructor
  · rintro (((oscillator | gain) | number) | source | sink)
    · exact ⟨.oscillator, oscillator⟩
    · exact ⟨.gain, gain⟩
    · exact ⟨.number, number⟩
    · exact ⟨.source, source⟩
    · exact ⟨.sink, sink⟩
  · rintro ⟨role, has⟩
    cases role with
    | oscillator => exact .inl (.inl (.inl has))
    | gain => exact .inl (.inl (.inr has))
    | number => exact .inl (.inr has)
    | source => exact .inr (.inl has)
    | sink => exact .inr (.inr has)

theorem Rack.Furnished.hasRole {rack : Rack} {instrument : Instrument}
    (full : rack.Furnished instrument) {id : String} {role : Role}
    (has : instrument.HasRole id role) : rack.HasRole id role := by
  cases role with
  | oscillator =>
    obtain ⟨partials, described⟩ := Option.isSome_iff_exists.mp has
    obtain ⟨ring, found, -⟩ := full.oscillators id partials described
    simp [HasRole, Roster.contains, found]
  | gain =>
    obtain ⟨factor, described⟩ := Option.isSome_iff_exists.mp has
    obtain ⟨stage, found, -⟩ := full.gains id factor described
    simp [HasRole, Roster.contains, found]
  | number =>
    obtain ⟨value, described⟩ := Option.isSome_iff_exists.mp has
    simp [HasRole, Roster.contains, full.numbers id value described]
  | source =>
    have same : id = instrument.source := has
    exact same ▸ full.source
  | sink =>
    have same : id = instrument.sink := has
    simp [HasRole, Roster.contains, same, full.sink]

/-- No id has one role in the rack and another in the instrument. -/
def Rack.Agrees (rack : Rack) (instrument : Instrument) : Prop :=
  ∀ id role role', rack.HasRole id role → instrument.HasRole id role' → role = role'

namespace Racks

variable {racks : Racks} {name : String} {rack rack' : Rack} {graph after : Graph τ}

/-- Where roles agree, an id stands for the same in a rack and in its instrument. -/
theorem part?_eq {instrument : Instrument} (full : rack.Furnished instrument)
    (agrees : rack.Agrees instrument) {id : String} (known : id ∈ instrument.ids) :
    rack.part? id =
      (instrument.part? id).map (Endpoint.map ((racks.set name rack).keyAt name)) := by
  obtain ⟨role, has⟩ := Instrument.mem_ids.mp known
  -- the id has no other role in the rack, and so none in the instrument
  have only (other : Role) (differs : other ≠ role) :
      ¬ rack.HasRole id other ∧ ¬ instrument.HasRole id other :=
    ⟨fun held => differs (agrees id other role held has),
      fun used => differs (agrees id other role (full.hasRole used) has)⟩
  have no_oscillator (differs : role ≠ .oscillator) : rack.oscillators.find? id = none ∧
      ¬ instrument.oscillators.contains id := by
    obtain ⟨held, used⟩ := only .oscillator (Ne.symm differs)
    exact ⟨by simpa [Rack.HasRole, Roster.contains] using held, used⟩
  have no_gain (differs : role ≠ .gain) : rack.gains.find? id = none ∧
      ¬ instrument.gains.contains id := by
    obtain ⟨held, used⟩ := only .gain (Ne.symm differs)
    exact ⟨by simpa [Rack.HasRole, Roster.contains] using held, used⟩
  have no_number (differs : role ≠ .number) : rack.numbers.find? id = none ∧
      instrument.numbers.find? id = none := by
    obtain ⟨held, used⟩ := only .number (Ne.symm differs)
    exact ⟨by simpa [Rack.HasRole, Roster.contains] using held,
      by simpa [Instrument.HasRole, Roster.contains] using used⟩
  unfold Rack.part? Instrument.part?
  cases role with
  | oscillator =>
    obtain ⟨partials, described⟩ := Option.isSome_iff_exists.mp has
    obtain ⟨ring, found, -⟩ := full.oscillators id partials described
    have found' : (racks.set name rack).ring? name id = some ring := ring?_set_self.trans found
    have used : instrument.oscillators.contains id := has
    rw [found, if_pos used, Option.map_some, Endpoint.map, keyAt_output found',
      keyAt_control found']
  | gain =>
    obtain ⟨none_found, unused⟩ := no_oscillator (by simp)
    obtain ⟨factor, described⟩ := Option.isSome_iff_exists.mp has
    obtain ⟨stage, found, -⟩ := full.gains id factor described
    have found' : (racks.set name rack).stage? name id = some stage := stage?_set_self.trans found
    have used : instrument.gains.contains id := has
    rw [none_found, found, if_neg unused, if_pos used, Option.map_some, Endpoint.map,
      keyAt_stage found']
  | number =>
    obtain ⟨none_found, unused⟩ := no_oscillator (by simp)
    obtain ⟨none_found', unused'⟩ := no_gain (by simp)
    obtain ⟨value, described⟩ := Option.isSome_iff_exists.mp has
    rw [none_found, none_found', if_neg unused, if_neg unused', described,
      full.numbers id value described]
    rfl
  | source =>
    obtain ⟨none_found, unused⟩ := no_oscillator (by simp)
    obtain ⟨none_found', unused'⟩ := no_gain (by simp)
    obtain ⟨none_found'', none_described⟩ := no_number (by simp)
    have held : rack.sources.contains id := full.hasRole has
    have same : id = instrument.source := has
    rw [none_found, none_found', none_found'', if_neg unused, if_neg unused', none_described]
    simp only [held, if_true, if_pos same]
    rfl
  | sink =>
    obtain ⟨none_found, unused⟩ := no_oscillator (by simp)
    obtain ⟨none_found', unused'⟩ := no_gain (by simp)
    obtain ⟨none_found'', none_described⟩ := no_number (by simp)
    obtain ⟨held, used⟩ := only .source (by simp)
    have same : id = instrument.sink := has
    have not_source : ¬ id = instrument.source := used
    have not_held : ¬ rack.sources.contains id = true := held
    rw [none_found, none_found', none_found'', if_neg unused, if_neg unused', none_described]
    simp only [if_neg not_held, if_neg not_source, if_pos same]
    rw [same, full.sink]
    rfl

/-- Parts that are the same stand at the same sites. -/
theorem keyAt_sameParts (same : rack.SameParts rack') :
    (racks.set name rack').keyAt name = (racks.set name rack).keyAt name := by
  have ring (id : String) (f : Oscillator → NodeKey)
      (fixed : ∀ ring : RingOscillator, f ring.fixed.oscillator = f ring.oscillator) :
      (rack'.oscillators.find? id).elim Graph.destination (fun ring => f ring.oscillator) =
        (rack.oscillators.find? id).elim Graph.destination (fun ring => f ring.oscillator) := by
    have both := same.oscillators id
    cases found : rack.oscillators.find? id with
    | none =>
      rw [found, Option.map_none, Option.map_eq_none_iff] at both
      rw [both]
    | some old =>
      obtain ⟨new, found', alike⟩ := same.symm.ring found
      rw [found', Option.elim, Option.elim, ← fixed new, alike, fixed]
  funext site
  cases site with
  | output id =>
    simp only [keyAt, output, ring?_set_self]
    exact ring id (·.output) fun _ => rfl
  | control id =>
    simp only [keyAt, control, ring?_set_self]
    exact ring id (·.control) fun _ => rfl
  | stage id =>
    simp only [keyAt, stage?_set_self]
    rw [same.rest]
  | destination => rfl

end Racks

/-! ### One cable -/

namespace Legend

variable {part? : String → Option (Endpoint Site)} {known : Site → Prop} {id : String}
  {feeding fed : Endpoint Site} {plug : Plug}

/-- A signal goes to an inlet that the node of its target has. -/
theorem accepts_of_connect (legend : Legend part? known) (to_part : part? id = some fed)
    {source target : Site} {inlet : Inlet}
    (h : plug.effect feeding fed = .connect source target inlet)
    (node : Node τ) (kind : node.kind = target.kind) : node.accepts inlet = true := by
  rcases legend.cases _ _ to_part with ⟨-, -, rfl⟩ | ⟨_, rfl⟩ | ⟨_, rfl⟩ | rfl | rfl
  all_goals cases feeding <;> cases h
  all_goals cases node <;> cases kind
  · rfl
  · rfl
  · cases plug <;> rfl
  · cases plug <;> rfl
  · rfl
  · rfl

/-- What is tuned is an oscillator. -/
theorem known_of_tune (legend : Legend part? known) (to_part : part? id = some fed)
    (h : (∃ frequency, plug.effect feeding fed = .tune frequency) ∨
      plug.effect feeding fed = .follow) : known (.output id) ∧ known (.control id) := by
  rcases legend.cases _ _ to_part with ⟨here, there, rfl⟩ | ⟨_, rfl⟩ | ⟨_, rfl⟩ | rfl | rfl
  · exact ⟨here, there⟩
  all_goals rcases h with ⟨_, effect⟩ | effect <;> cases feeding <;> cases effect

/-- What is turned is a gain. -/
theorem known_of_turn (legend : Legend part? known) (to_part : part? id = some fed) {stage : Site}
    {factor : Float32} (h : plug.effect feeding fed = .turn stage factor) :
    known (.stage id) ∧ stage = .stage id := by
  have same := Plug.end_of_turn h
  rcases legend.cases _ _ to_part with ⟨-, -, rfl⟩ | ⟨here, rfl⟩ | ⟨_, rfl⟩ | rfl | rfl
  all_goals cases same
  exact ⟨here, rfl⟩

end Legend

namespace Racks

variable {racks : Racks} {name : String} {rack rack' : Rack} {graph after : Graph τ}

section Wiring

variable [Fourier]

theorem Sound.kind_keyAt (sound : racks.Sound graph) {site : Site}
    (stands : racks.Stands name site) : graph.kind? (racks.keyAt name site) = some site.kind := by
  cases site with
  | output id =>
    obtain ⟨ring, found⟩ := stands
    rw [keyAt_output found, Graph.kind?, (sound.rings name id ring found).output]
    rfl
  | control id =>
    obtain ⟨ring, found⟩ := stands
    rw [keyAt_control found, (sound.rings name id ring found).control]
    rfl
  | stage id =>
    obtain ⟨stage, found⟩ := stands
    rw [keyAt_stage found, sound.stages name id stage found]
    rfl
  | destination => exact (sound.wellFormed.destined _).mpr rfl

/-- A connection between sites can be made unless it ends where it starts. -/
theorem Sound.admits_lift (sound : racks.Sound graph) {wire : Wire}
    (from_stands : racks.Stands name wire.source) (to_stands : racks.Stands name wire.target)
    (speaks : wire.source.Speaks)
    (fits : ∀ node : Node τ, node.kind = wire.target.kind → node.accepts wire.inlet = true) :
    graph.admits (racks.lift name wire) = true ↔ wire.source ≠ wire.target := by
  obtain ⟨source, from_node, source_kind⟩ :=
    Option.map_eq_some_iff.mp (sound.kind_keyAt from_stands)
  obtain ⟨target, to_node, target_kind⟩ := Option.map_eq_some_iff.mp (sound.kind_keyAt to_stands)
  have output : source.hasOutput = true := by
    have not_destination : source.kind ≠ .destination := by
      rw [source_kind]
      cases site : wire.source <;> simp_all [Site.kind, Site.Speaks]
    cases source <;> first | rfl | exact absurd rfl not_destination
  rw [Graph.admits_iff]
  constructor
  · rintro ⟨-, -, apart⟩ same
    exact apart (congrArg (racks.keyAt name) same)
  · intro apart
    exact ⟨⟨source, from_node, output⟩, ⟨target, to_node, fits target target_kind⟩,
      fun same => apart (sound.keyAt_inj from_stands to_stands same).1⟩

/-- A signal is plugged in as the board says. -/
theorem Sound.connections_connect (sound : racks.Sound graph) {base : List Connection}
    {board : Board} (wires : graph.connections = base ++ board.wires.map (racks.lift name))
    (known : ∀ wire ∈ board.wires,
      racks.Stands name wire.source ∧ racks.Stands name wire.target)
    (fresh : ∀ site, racks.Stands name site → site.Speaks →
      ∀ c ∈ base, c.source ≠ racks.keyAt name site) (wire : Wire)
    (from_stands : racks.Stands name wire.source) (to_stands : racks.Stands name wire.target)
    (speaks : wire.source.Speaks)
    (fits : ∀ node : Node τ, node.kind = wire.target.kind → node.accepts wire.inlet = true) :
    (graph.connect (racks.keyAt name wire.source) (racks.keyAt name wire.target)
      wire.inlet).1.connections = base ++ (board.connect wire).wires.map (racks.lift name) := by
  have admits : graph.admits ⟨racks.keyAt name wire.source, racks.keyAt name wire.target,
      wire.inlet⟩ = true ↔ wire.source ≠ wire.target :=
    sound.admits_lift from_stands to_stands speaks fits
  have present : racks.lift name wire ∈ graph.connections ↔ wire ∈ board.wires := by
    rw [wires, List.mem_append]
    constructor
    · rintro (old | lifted)
      · exact absurd rfl (fresh wire.source from_stands speaks _ old)
      · obtain ⟨other, mem, same⟩ := List.mem_map.mp lifted
        obtain ⟨other_from, other_to⟩ := known other mem
        injection same with source target inlet
        have source := (sound.keyAt_inj other_from from_stands source).1
        have target := (sound.keyAt_inj other_to to_stands target).1
        have one : other = wire := by
          cases other
          cases wire
          simp_all
        exact one ▸ mem
    · exact fun mem => .inr (List.mem_map_of_mem mem)
  rw [Graph.connections_connect]
  unfold Board.connect
  by_cases same : wire.source = wire.target
  · rw [if_neg fun both => admits.mp both.1 same, if_pos (.inl same), wires]
  · by_cases mem : wire ∈ board.wires
    · rw [if_neg fun both => both.2 (present.mpr mem), if_pos (.inr mem), wires]
    · rw [if_pos ⟨admits.mpr same, fun there => mem (present.mp there)⟩,
        if_neg fun either => either.elim same mem, wires, List.append_assoc, List.map_append]
      rfl

end Wiring

/-- The parts at known sites stand as a board says. -/
structure Settled (racks : Racks) (name : String) (graph : Graph τ) (known : Site → Prop)
    (board : Board) : Prop where
  rings : ∀ id, known (.output id) ∨ known (.control id) → ∃ ring, racks.ring? name id = some ring ∧
    graph.node? ring.oscillator.control = some (.constant (board.levels (.control id))) ∧
    ring.oscillator.followsNote = board.follows id
  stages : ∀ id, known (.stage id) → ∃ stage, racks.stage? name id = some stage ∧
    graph.node? stage.key = some (.gain (board.levels (.stage id)))

variable {known : Site → Prop} {board : Board}

theorem Settled.stands (settled : racks.Settled name graph known board) {site : Site}
    (here : known site) : racks.Stands name site := by
  cases site with
  | output id =>
    obtain ⟨ring, found, -⟩ := settled.rings id (.inl here)
    exact ⟨ring, found⟩
  | control id =>
    obtain ⟨ring, found, -⟩ := settled.rings id (.inr here)
    exact ⟨ring, found⟩
  | stage id =>
    obtain ⟨stage, found, -⟩ := settled.stages id here
    exact ⟨stage, found⟩
  | destination => trivial

/-- A wire of a board joins nodes of its instrument, or goes to the destination. -/
theorem Settled.owns_lift {known : Site → Prop} {board : Board}
    (settled : racks.Settled name graph known board) {wire : Wire}
    (admitted : wire.Within known) : racks.Owns name (racks.lift name wire).source ∧
      ((racks.lift name wire).target = Graph.destination ∨
        racks.Owns name (racks.lift name wire).target) := by
  obtain ⟨from_site, speaks, to_site⟩ := admitted
  constructor
  · rcases owns_keyAt (settled.stands from_site) with destined | owned
    · rw [destined] at speaks
      exact False.elim speaks
    · exact owned
  · rcases owns_keyAt (settled.stands to_site) with destined | owned
    · left
      show racks.keyAt name wire.target = _
      rw [destined]
      rfl
    · exact .inr owned

theorem Settled.of_same (settled : racks.Settled name graph known board)
    (nodes : ∀ key, after.node? key = graph.node? key) :
    racks.Settled name after known board where
  rings := by
    intro id here
    obtain ⟨ring, found, control, follows⟩ := settled.rings id here
    exact ⟨ring, found, (nodes _).trans control, follows⟩
  stages := by
    intro id here
    obtain ⟨stage, found, factor⟩ := settled.stages id here
    exact ⟨stage, found, (nodes _).trans factor⟩

/-- Signals change neither levels nor whether notes are followed. -/
theorem Settled.connect (settled : racks.Settled name graph known board) (wire : Wire) :
    racks.Settled name graph known (board.connect wire) := by
  unfold Board.connect
  split
  · exact settled
  · exact ⟨settled.rings, settled.stages⟩

variable [Fourier]

/-- To turn a gain on the board is to turn it in the graph. -/
theorem Sound.settled_turn (sound : racks.Sound graph)
    (settled : racks.Settled name graph known board) {id : String}
    (here : known (.stage id)) (factor : Float32) :
    racks.Settled name (graph.setValue (racks.keyAt name (.stage id)) .gain factor).1 known
      (board.turn (.stage id) factor) := by
  have stands : racks.Stands name (.stage id) := settled.stands here
  constructor
  case rings =>
    intro other known
    obtain ⟨ring, found, control, follows⟩ := settled.rings other known
    refine ⟨ring, found, ?_, follows⟩
    have apart : ring.oscillator.control ≠ racks.keyAt name (.stage id) := by
      obtain ⟨stage, found_stage⟩ := stands
      rw [keyAt_stage found_stage]
      exact sound.control_ne_stage found found_stage
    rw [Graph.node?_setValue, if_neg apart, control]
    rfl
  case stages =>
    intro other known
    obtain ⟨stage, found, level⟩ := settled.stages other known
    refine ⟨stage, found, ?_⟩
    rw [Graph.node?_setValue]
    by_cases here : other = id
    · subst here
      rw [keyAt_stage found, if_pos rfl, level]
      simp [Board.turn, Node.setValue?]
    · have apart : stage.key ≠ racks.keyAt name (.stage id) := by
        rw [← keyAt_stage found]
        intro same
        have stands' : racks.Stands name (.stage other) := ⟨stage, found⟩
        injection (sound.keyAt_inj stands' stands same).1 with same_id
        exact here same_id
      rw [if_neg apart, level]
      simp [Board.turn, here]

/-- To tune an oscillator on the board is to tune it in the graph. -/
theorem Sound.settled_tune (sound : (racks.set name rack).Sound graph)
    (settled : (racks.set name rack).Settled name graph known board)
    {id : String} {ring : RingOscillator} (found : rack.oscillators.find? id = some ring)
    (follows : Bool) (level : Float32) :
    (racks.set name (rack.putOscillator id
        { ring with oscillator := { ring.oscillator with followsNote := follows } })).Settled name
      (graph.setValue ring.oscillator.control .offset level).1 known
      (board.tune id follows level) := by
  have found' : (racks.set name rack).ring? name id = some ring := ring?_set_self.trans found
  constructor
  case rings =>
    intro other known
    rw [ring?_putOscillator]
    by_cases here : other = id
    · subst here
      obtain ⟨old, found_old, control, -⟩ := settled.rings other known
      rw [found'] at found_old
      cases found_old
      refine ⟨_, if_pos ⟨rfl, rfl⟩, ?_, ?_⟩
      · show (graph.setValue ring.oscillator.control .offset level).1.node?
          ring.oscillator.control = _
        rw [Graph.node?_setValue, if_pos rfl, control]
        simp [Board.tune, Board.turn, Node.setValue?]
      · simp [Board.tune]
    · obtain ⟨old, found_old, control, old_follows⟩ := settled.rings other known
      refine ⟨old, (if_neg fun both => here both.2).trans found_old, ?_, ?_⟩
      · have apart : old.oscillator.control ≠ ring.oscillator.control := by
          rw [← keyAt_control found_old, ← keyAt_control found']
          intro same
          have stands : (racks.set name rack).Stands name (.control other) := ⟨old, found_old⟩
          have stands' : (racks.set name rack).Stands name (.control id) := ⟨ring, found'⟩
          injection (sound.keyAt_inj stands stands' same).1 with same_id
          exact here same_id
        rw [Graph.node?_setValue, if_neg apart, control]
        simp [Board.tune, Board.turn, here]
      · simp [Board.tune, here, old_follows]
  case stages =>
    intro other known
    obtain ⟨stage, found_stage, factor⟩ := settled.stages other known
    refine ⟨stage, (stage?_putOscillator ..).trans found_stage, ?_⟩
    have apart : stage.key ≠ ring.oscillator.control :=
      (sound.control_ne_stage found' found_stage).symm
    rw [Graph.node?_setValue, if_neg apart, factor]
    rfl

/-- An oscillator that is changed is changed on the board. -/
theorem Sound.modify_board (sound : (racks.set name rack).Sound graph) {base : List Connection}
    (wires : graph.connections = base ++ board.wires.map ((racks.set name rack).lift name))
    (settled : (racks.set name rack).Settled name graph known board) {id : String}
    (here : known (.output id) ∧ known (.control id))
    {f : Oscillator → Graph τ → Oscillator × Graph τ} {follows : Bool} {level : Float32}
    (acts : ∀ oscillator graph, f oscillator graph = ({ oscillator with followsNote := follows },
      (graph.setValue oscillator.control .offset level).1))
    (plug : rack.modifyOscillator graph id f = (rack', after)) :
    after.connections = base ++ (board.tune id follows level).wires.map
        ((racks.set name rack).lift name) ∧
      (racks.set name rack').Settled name after known (board.tune id follows level) := by
  obtain ⟨ring, found, -⟩ := settled.rings id (.inl here.1)
  rw [ring?_set_self] at found
  simp only [Rack.modifyOscillator, found, RingOscillator.withOscillator, acts] at plug
  cases plug
  exact ⟨(graph.setValue_rest _ _ _).2.1.trans wires,
    sound.settled_tune settled found follows level⟩

section Plugging

variable {part? : String → Option (Endpoint Site)} (legend : Legend part? known)

include legend

/-- To plug a cable into a rack does what plugging it into the board says. -/
theorem Sound.plug_board (sound : (racks.set name rack).Sound graph) {cable : Cable}
    (from_part : rack.part? cable.source =
      (part? cable.source).map (Endpoint.map ((racks.set name rack).keyAt name)))
    (to_part : rack.part? cable.target =
      (part? cable.target).map (Endpoint.map ((racks.set name rack).keyAt name)))
    {base : List Connection}
    (wires : graph.connections = base ++ board.wires.map ((racks.set name rack).lift name))
    (within : ∀ wire ∈ board.wires, wire.Within known)
    (fresh : ∀ site, (racks.set name rack).Stands name site → site.Speaks →
      ∀ c ∈ base, c.source ≠ (racks.set name rack).keyAt name site)
    (settled : (racks.set name rack).Settled name graph known board)
    (plug : rack.plug graph cable = (rack', after)) :
    after.connections =
        base ++ (board.plug part? cable).wires.map ((racks.set name rack).lift name) ∧
      (racks.set name rack').Settled name after known (board.plug part? cable) := by
  unfold Rack.plug at plug
  unfold Board.plug
  cases feeding_eq : part? cable.source with
  | none =>
    rw [from_part, feeding_eq] at plug
    cases plug
    exact ⟨wires, settled.of_same fun _ => rfl⟩
  | some feeding =>
    cases fed_eq : part? cable.target with
    | none =>
      rw [from_part, to_part, feeding_eq, fed_eq] at plug
      cases plug
      exact ⟨wires, settled.of_same fun _ => rfl⟩
    | some fed =>
      rw [from_part, to_part, feeding_eq, fed_eq] at plug
      simp only [Option.map_some, Plug.effect_map] at plug
      dsimp only
      cases effect : cable.plug.effect feeding fed with
      | connect source target inlet =>
        rw [effect] at plug
        cases plug
        obtain ⟨from_site, speaks, to_site⟩ := legend.within_of_connect feeding_eq fed_eq effect
        refine ⟨?_, ?_⟩
        · refine sound.connections_connect wires (fun wire mem => ?_) fresh
            ⟨source, target, inlet⟩ (settled.stands from_site) (settled.stands to_site) speaks ?_
          · obtain ⟨from_site, -, to_site⟩ := within wire mem
            exact ⟨settled.stands from_site, settled.stands to_site⟩
          · intro node kind
            exact legend.accepts_of_connect fed_eq effect node kind
        · exact (settled.connect _).of_same fun _ => Graph.node?_connect ..
      | tune frequency =>
        rw [effect] at plug
        exact sound.modify_board wires settled
          (legend.known_of_tune fed_eq (.inl ⟨_, effect⟩)) (fun _ _ => rfl) plug
      | follow =>
        rw [effect] at plug
        exact sound.modify_board wires settled
          (legend.known_of_tune fed_eq (.inr effect)) (fun _ _ => rfl) plug
      | turn stage factor =>
        rw [effect] at plug
        cases plug
        obtain ⟨here, rfl⟩ := legend.known_of_turn fed_eq effect
        exact ⟨(graph.setValue_rest _ _ _).2.1.trans wires,
          sound.settled_turn settled here factor⟩
      | nothing =>
        rw [effect] at plug
        cases plug
        exact ⟨wires, settled.of_same fun _ => rfl⟩

end Plugging

/-! ### All cables -/

omit [Fourier] in
theorem stands_sameParts (same : rack.SameParts rack') (site : Site) :
    (racks.set name rack').Stands name site ↔ (racks.set name rack).Stands name site := by
  have ring (id : String) : (∃ ring, rack'.oscillators.find? id = some ring) ↔
      ∃ ring, rack.oscillators.find? id = some ring := by
    have both := same.contains id
    simp only [Roster.contains] at both
    rw [← Option.isSome_iff_exists, ← Option.isSome_iff_exists, both]
  cases site with
  | output id | control id =>
    simp only [Stands, ring?_set_self]
    exact ring id
  | stage id =>
    simp only [Stands, stage?_set_self]
    rw [same.rest]
  | destination => exact Iff.rfl

omit [Fourier] in
/-- Parts that are the same are known by the same ids. -/
theorem part?_sameParts (same : rack.SameParts rack') (id : String) :
    rack'.part? id = rack.part? id := by
  have rings := same.oscillators id
  unfold Rack.part?
  rw [same.rest]
  cases found : rack.oscillators.find? id with
  | none =>
    rw [found, Option.map_none, Option.map_eq_none_iff] at rings
    simp only [rings]
  | some old =>
    obtain ⟨new, found', alike⟩ := same.symm.ring found
    have output : new.oscillator.output = old.oscillator.output :=
      congrArg (·.oscillator.output) alike
    have control : new.oscillator.control = old.oscillator.control :=
      congrArg (·.oscillator.control) alike
    simp only [found', output, control]

theorem Sound.plugAll_board {part? : String → Option (Endpoint Site)} (legend : Legend part? known)
    {base : List Connection} (cables : List Cable) {board : Board}
    (sound : (racks.set name rack).Sound graph)
    (parts : ∀ cable ∈ cables, ∀ id, id = cable.source ∨ id = cable.target →
      rack.part? id = (part? id).map (Endpoint.map ((racks.set name rack).keyAt name)))
    (wires : graph.connections = base ++ board.wires.map ((racks.set name rack).lift name))
    (within : ∀ wire ∈ board.wires, wire.Within known)
    (fresh : ∀ site, (racks.set name rack).Stands name site → site.Speaks →
      ∀ c ∈ base, c.source ≠ (racks.set name rack).keyAt name site)
    (settled : (racks.set name rack).Settled name graph known board)
    (plug : cables.foldl (fun (rack, graph) cable => rack.plug graph cable) (rack, graph) =
      (rack', after)) :
    after.connections = base ++
        (cables.foldl (Board.plug part?) board).wires.map ((racks.set name rack).lift name) ∧
      (racks.set name rack').Settled name after known
        (cables.foldl (Board.plug part?) board) := by
  induction cables generalizing rack graph board with
  | nil =>
    cases plug
    exact ⟨wires, settled⟩
  | cons cable rest ih =>
    obtain ⟨next, middle, first, sound', -, -, same⟩ := sound.plug cable
    have known_parts := parts cable List.mem_cons_self
    obtain ⟨wires', settled'⟩ := sound.plug_board legend (known_parts _ (.inl rfl))
      (known_parts _ (.inr rfl)) wires within fresh settled first
    have keys : (racks.set name next).keyAt name = (racks.set name rack).keyAt name :=
      keyAt_sameParts same
    have lift : (racks.set name next).lift name = (racks.set name rack).lift name := by
      funext wire
      rw [Racks.lift, Racks.lift, keys]
    rw [List.foldl_cons] at plug
    simp only [first] at plug
    rw [← lift] at wires'
    rw [List.foldl_cons, ← lift]
    refine ih sound' ?_ wires' (legend.within_of_mem_plug within cable) ?_ settled' plug
    · intro later mem id either
      rw [part?_sameParts same, keys]
      exact parts later (List.mem_cons_of_mem _ mem) id either
    · intro site stands speaks
      rw [keys]
      exact fresh site ((stands_sameParts same site).mp stands) speaks

omit [Fourier] in
/-- Where all cables are pulled out, no signal comes from an oscillator or a gain of the rack. -/
theorem apart_of_spares {site : Site}
    (stands : (racks.set name rack).Stands name site) (speaks : site.Speaks) {c : Connection}
    (spared : rack.spares c = true) : c.source ≠ (racks.set name rack).keyAt name site := by
  simp only [Rack.spares, Bool.and_eq_true, List.all_eq_true, bne_iff_ne] at spared
  cases site with
  | output id =>
    obtain ⟨ring, found⟩ := stands
    rw [keyAt_output found]
    rw [ring?_set_self] at found
    have apart := spared.1 ring (Roster.mem_values.mpr ⟨id, found⟩)
    simp only [Rack.apartFrom, Bool.and_eq_true, bne_iff_ne] at apart
    exact apart.1
  | stage id =>
    obtain ⟨stage, found⟩ := stands
    rw [keyAt_stage found]
    rw [stage?_set_self] at found
    exact spared.2 stage (Roster.mem_values.mpr ⟨id, found⟩)
  | control id => exact False.elim speaks
  | destination => exact False.elim speaks

/-- To patch a rack leaves what is not its own and adds the wires of a board on which ids stand for
the same parts. -/
theorem Sound.patch_board (sound : (racks.set name rack).Sound graph)
    {part? : String → Option (Endpoint Site)} (legend : Legend part? known)
    (factor : String → Float32) (cables : List Cable)
    (parts : ∀ cable ∈ cables, ∀ id, id = cable.source ∨ id = cable.target →
      rack.part? id = (part? id).map (Endpoint.map ((racks.set name rack).keyAt name)))
    (rings : ∀ id, known (.output id) ∨ known (.control id) → rack.oscillators.contains id)
    (stages : ∀ id, known (.stage id) →
      ∃ stage, rack.gains.find? id = some stage ∧ stage.factor = factor id)
    (patch : rack.patch graph cables = (rack', after)) :
    after.connections = graph.connections.filter rack.spares ++
        (cables.foldl (Board.plug part?) (.bare factor)).wires.map
          ((racks.set name rack).lift name) ∧
      (racks.set name rack').Settled name after known
        (cables.foldl (Board.plug part?) (.bare factor)) := by
  obtain ⟨bare, middle, unplug, sound', -, unplugged, same_rest, fixed⟩ := sound.unplug
  have same : rack.SameParts bare := by
    refine ⟨same_rest, fun id => ?_⟩
    rw [fixed, Option.map_map]
    rfl
  have keys : (racks.set name bare).keyAt name = (racks.set name rack).keyAt name :=
    keyAt_sameParts same
  have lift : (racks.set name bare).lift name = (racks.set name rack).lift name := by
    funext wire
    rw [Racks.lift, Racks.lift, keys]
  rw [Rack.patch, unplug] at patch
  rw [← lift]
  refine sound'.plugAll_board legend cables ?_ ?_ ?_ ?_ ?_ patch
  · intro cable mem id either
    rw [part?_sameParts same, keys]
    exact parts cable mem id either
  · rw [unplugged.connections]
    exact (List.append_nil _).symm
  · exact fun _ mem => absurd mem List.not_mem_nil
  · intro site stands speaks c mem
    rw [keys]
    exact apart_of_spares ((stands_sameParts same site).mp stands) speaks
      (List.mem_filter.mp mem).2
  · constructor
    case rings =>
      intro id here
      obtain ⟨ring, found⟩ := Option.isSome_iff_exists.mp (rings id here)
      refine ⟨ring.fixed, ?_, unplugged.controls id ring found, rfl⟩
      rw [ring?_set_self, fixed, found, Option.map_some]
    case stages =>
      intro id here
      obtain ⟨stage, found, same_factor⟩ := stages id here
      refine ⟨stage, ?_, ?_⟩
      · rw [stage?_set_self, same_rest]
        exact found
      · rw [unplugged.gains id stage found, same_factor]
        rfl

/-- To patch a rack that holds the parts of an instrument adds the wires of its board. -/
theorem Sound.patch_instrument (sound : (racks.set name rack).Sound graph) {instrument : Instrument}
    (full : rack.Furnished instrument) (agrees : rack.Agrees instrument) (cables : List Cable)
    (known : ∀ cable ∈ cables, cable.source ∈ instrument.ids ∧ cable.target ∈ instrument.ids)
    (patch : rack.patch graph cables = (rack', after)) :
    after.connections = graph.connections.filter rack.spares ++
        (instrument.board cables).wires.map ((racks.set name rack).lift name) ∧
      (racks.set name rack').Settled name after instrument.Describes (instrument.board cables) := by
  refine sound.patch_board instrument.legend _ cables ?_ ?_ ?_ patch
  · rintro cable mem id (rfl | rfl)
    · exact part?_eq full agrees (known cable mem).1
    · exact part?_eq full agrees (known cable mem).2
  · intro id described
    obtain ⟨partials, described⟩ := Option.isSome_iff_exists.mp (or_self_iff.mp described)
    obtain ⟨ring, found, -⟩ := full.oscillators id partials described
    exact Roster.contains_of_find? found
  · intro id described
    obtain ⟨factor, described⟩ := Option.isSome_iff_exists.mp described
    obtain ⟨stage, found, same_factor⟩ := full.gains id factor described
    exact ⟨stage, found, by rw [same_factor, described, Option.getD_some]⟩

end Racks

end Patchbay
