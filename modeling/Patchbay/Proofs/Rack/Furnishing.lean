import Patchbay.Proofs.Rack.Ownership

/-!
# Furnishing a rack

A rack that is furnished holds every part of its instrument, set as the instrument describes it,
beside the parts that it had before. Other racks do not notice.
-/
namespace Patchbay

variable {τ : Type}

namespace Racks

/-- The nodes of all instruments but one stay as they are. -/
def Spares (racks : Racks) (name : String) (graph after : Graph τ) : Prop :=
  ∀ other key, other ≠ name → racks.Owns other key → after.node? key = graph.node? key

variable {racks : Racks} {name : String} {rack : Rack} {graph middle after : Graph τ}

theorem held_set_of_ne {holder : Holder} (differs : holder.instrument ≠ name) (rack : Rack) :
    (racks.set name rack).held holder = racks.held holder := by
  cases holder with
  | ring place id =>
    have differs : place ≠ name := differs
    simp [held, ring?_set, differs]
  | stage place id =>
    have differs : place ≠ name := differs
    simp [held, stage?_set, differs]

theorem owns_set_of_ne {other : String} (differs : other ≠ name) (rack : Rack) (key : NodeKey) :
    (racks.set name rack).Owns other key ↔ racks.Owns other key := by
  constructor
  · rintro ⟨holder, rfl, mem⟩
    exact ⟨holder, rfl, held_set_of_ne differs rack ▸ mem⟩
  · rintro ⟨holder, rfl, mem⟩
    exact ⟨holder, rfl, (held_set_of_ne differs rack).symm ▸ mem⟩

theorem Spares.trans (first : racks.Spares name graph middle)
    (second : racks.Spares name middle after) : racks.Spares name graph after := by
  intro other key differs owned
  rw [second other key differs owned, first other key differs owned]

theorem Spares.of_reported (h : graph.Reported after) : racks.Spares name graph after :=
  fun _ key _ _ => h.node? key

/-- A change of nodes that one instrument holds spares the others. -/
theorem Sound.spares_of_owned [Fourier] (sound : (racks.set name rack).Sound graph)
    (kept : ∀ key, graph.contains key → ¬ (racks.set name rack).Owns name key →
      after.node? key = graph.node? key) : racks.Spares name graph after := by
  intro other key differs owned
  have owned : (racks.set name rack).Owns other key := (owns_set_of_ne differs rack key).mpr owned
  refine kept key ?_ fun mine => differs (sound.owner_unique mine owned).symm
  obtain ⟨holder, -, mem⟩ := owned
  exact (sound.ledger.lives key).mpr (.inr ⟨holder, mem⟩)

end Racks

/-- The roles that an id can have in an instrument. -/
inductive Role where
  | oscillator
  | gain
  | number
  | source
  | sink
  deriving DecidableEq

/-- A description uses an id in a role. -/
def Instrument.HasRole (instrument : Instrument) (id : String) : Role → Prop
  | .oscillator => instrument.oscillators.contains id
  | .gain => instrument.gains.contains id
  | .number => instrument.numbers.contains id
  | .source => id = instrument.source
  | .sink => id = instrument.sink

/-- The ids of an instrument with the roles that they have. -/
def Instrument.roles (instrument : Instrument) : List (String × Role) :=
  instrument.oscillators.names.map (·, .oscillator) ++ instrument.gains.names.map (·, .gain) ++
    instrument.numbers.names.map (·, .number) ++
      [(instrument.source, .source), (instrument.sink, .sink)]

theorem Instrument.mem_roles {instrument : Instrument} {id : String} {role : Role} :
    (id, role) ∈ instrument.roles ↔ instrument.HasRole id role := by
  simp only [roles, List.mem_append, List.mem_map, Prod.mk.injEq, List.mem_cons, List.not_mem_nil,
    or_false]
  cases role <;> simp [HasRole, Roster.contains_iff_mem_names]

/-- A rack holds an id in a role. -/
def Rack.HasRole (rack : Rack) (id : String) : Role → Prop
  | .oscillator => rack.oscillators.contains id
  | .gain => rack.gains.contains id
  | .number => rack.numbers.contains id
  | .source => rack.sources.contains id
  | .sink => rack.sinks.contains id

/-- A rack holds all parts of an instrument, set as described. -/
structure Rack.Furnished (rack : Rack) (instrument : Instrument) : Prop where
  oscillators : ∀ id partials, instrument.oscillators.find? id = some partials →
    ∃ ring, rack.oscillators.find? id = some ring ∧ ring.oscillator.partials = partials ∧
      ring.signals = instrument.signals ∧ ring.weights = instrument.weights id
  gains : ∀ id factor, instrument.gains.find? id = some factor →
    ∃ stage, rack.gains.find? id = some stage ∧ stage.factor = factor
  numbers : ∀ id value, instrument.numbers.find? id = some value →
    rack.numbers.find? id = some value
  source : rack.sources.contains instrument.source
  sink : rack.sinks.find? instrument.sink = some Graph.destination
  active : rack.active = instrument.oscillators.names

/-- To furnish a rack brings in no roles but those of the instrument. -/
theorem Rack.hasRole_furnished {rack rack' : Rack} {instrument : Instrument}
    (oscillators : ∀ id, id ∉ instrument.oscillators.names →
      rack'.oscillators.find? id = rack.oscillators.find? id)
    (gains : ∀ id, id ∉ instrument.gains.names → rack'.gains.find? id = rack.gains.find? id)
    (numbers : ∀ id, rack'.numbers.find? id =
      (instrument.numbers.find? id).or (rack.numbers.find? id))
    (sources : rack'.sources = rack.sources.insert instrument.source ())
    (sinks : rack'.sinks = rack.sinks.insert instrument.sink Graph.destination) {id : String}
    {role : Role} (has : rack'.HasRole id role) :
    rack.HasRole id role ∨ instrument.HasRole id role := by
  cases role with
  | oscillator =>
    by_cases named : id ∈ instrument.oscillators.names
    · exact .inr (Roster.contains_iff_mem_names.mpr named)
    · left
      simp only [HasRole, Roster.contains] at has ⊢
      rwa [oscillators id named] at has
  | gain =>
    by_cases named : id ∈ instrument.gains.names
    · exact .inr (Roster.contains_iff_mem_names.mpr named)
    · left
      simp only [HasRole, Roster.contains] at has ⊢
      rwa [gains id named] at has
  | number =>
    simp only [HasRole, Instrument.HasRole, Roster.contains, numbers] at has ⊢
    cases found : instrument.numbers.find? id with
    | none =>
      rw [found] at has
      exact .inl has
    | some value => exact .inr rfl
  | source =>
    simp only [HasRole, Instrument.HasRole, Roster.contains, sources, Roster.find?_insert] at has ⊢
    split at has
    · rename_i here
      exact .inr here
    · exact .inl has
  | sink =>
    simp only [HasRole, Instrument.HasRole, Roster.contains, sinks, Roster.find?_insert] at has ⊢
    split at has
    · rename_i here
      exact .inr here
    · exact .inl has

namespace RingOscillator

/-- What a ring has in the graph, whatever it is set to. -/
def body (ring : RingOscillator) : RingOscillator :=
  { ring with
    oscillator := { ring.oscillator with partials := .empty, followsNote := false }
    signals := []
    weights := [] }

theorem Sound.of_body [Fourier] {ring other : RingOscillator} {graph : Graph τ}
    (sound : ring.Sound graph) (same : ring.body = other.body) : other.Sound graph := by
  obtain ⟨⟨partials, output, control, follows, memo, nodes, generators⟩, signals, weights, memos⟩ :=
    other
  simp only [body, RingOscillator.mk.injEq, Oscillator.mk.injEq, true_and] at same
  obtain ⟨⟨rfl, rfl, rfl, rfl, rfl⟩, rfl⟩ := same
  exact ⟨sound.output, sound.control, sound.voices, sound.generators, sound.kept, sound.voiced⟩

/-- A new ring has the next two nodes. -/
theorem create_spec (graph : Graph τ) (wellFormed : graph.WellFormed) (partials : Partials) :
    ∃ after, RingOscillator.create graph partials =
        (⟨.around partials graph.nodes.size (graph.nodes.size + 1), [], [], []⟩, after) ∧
      graph.Grown after [.gain 1.0, .constant Oscillator.defaultFrequency] [] := by
  have first := graph.grown_add wellFormed (.gain 1.0) (by simp [Node.kind])
  have second := Graph.grown_add _ first.wellFormed (.constant Oscillator.defaultFrequency)
    (by simp [Node.kind])
  refine ⟨_, ?_, first.trans second⟩
  simp only [RingOscillator.create, Oscillator.create, Graph.addGain, Graph.addConstant,
    Graph.add_fst]
  have size : (graph.add (.gain 1.0)).2.nodes.size = graph.nodes.size + 1 := first.size
  rw [size]

end RingOscillator

namespace Racks

variable {racks : Racks} {name : String} {rack : Rack} {graph after : Graph τ}

theorem ring?_set_self {id : String} : (racks.set name rack).ring? name id =
    rack.oscillators.find? id := by
  rw [ring?_set, if_pos rfl]

theorem stage?_set_self {id : String} : (racks.set name rack).stage? name id =
    rack.gains.find? id := by
  rw [stage?_set, if_pos rfl]

variable [Fourier]

/-- Parts may be set anew on the nodes that they have. -/
theorem Sound.recast (sound : racks.Sound graph) {racks' : Racks}
    (rings : ∀ place id, (racks'.ring? place id).map RingOscillator.body =
      (racks.ring? place id).map RingOscillator.body)
    (stages : ∀ place id, (racks'.stage? place id).map GainStage.key =
      (racks.stage? place id).map GainStage.key)
    (sinks : ∀ place rack id key, racks' place = some rack → rack.sinks.find? id = some key →
      key = Graph.destination) : racks'.Sound graph := by
  have old_ring {place id : String} {ring : RingOscillator}
      (found : racks'.ring? place id = some ring) :
      ∃ old, racks.ring? place id = some old ∧ old.body = ring.body := by
    have same := rings place id
    rw [found] at same
    exact Option.map_eq_some_iff.mp same.symm
  have same_held : racks'.held = racks.held := by
    funext holder
    cases holder with
    | ring place id =>
      have same := rings place id
      simp only [held]
      cases found : racks.ring? place id <;> cases found' : racks'.ring? place id <;>
        simp only [found, found', Option.map_some, Option.map_none, Option.some.injEq,
          reduceCtorEq] at same
      · rfl
      · have keys := congrArg RingOscillator.keys same
        exact keys
    | stage place id =>
      have same := stages place id
      simp only [held]
      cases found : racks.stage? place id <;> cases found' : racks'.stage? place id <;>
        simp only [found, found', Option.map_some, Option.map_none, Option.some.injEq,
          reduceCtorEq] at same
      · rfl
      · simp only [Option.elim, same]
  constructor
  case wellFormed => exact sound.wellFormed
  case ledger => exact same_held ▸ sound.ledger
  case rings =>
    intro place id ring found
    obtain ⟨old, found, same⟩ := old_ring found
    exact (sound.rings place id old found).of_body same
  case stages =>
    intro place id stage found
    have same := stages place id
    rw [found] at same
    obtain ⟨old, found, same⟩ := Option.map_eq_some_iff.mp same.symm
    exact same ▸ sound.stages place id old found
  case sinks => exact sinks
  case wired => simpa only [Owns, same_held] using sound.wired
  case controls =>
    intro c mem place id ring found driven
    obtain ⟨old, found, same⟩ := old_ring found
    have control : ring.oscillator.control = old.oscillator.control :=
      congrArg (·.oscillator.control) same.symm
    have nodes : old.oscillator.nodes = ring.oscillator.nodes :=
      congrArg (·.oscillator.nodes) same
    exact nodes ▸ sound.controls c mem place id old found (driven.trans control)

theorem Sound.retune (sound : (racks.set name rack).Sound graph) {id : String}
    {ring retuned : RingOscillator} (found : rack.oscillators.find? id = some ring)
    (same : retuned.body = ring.body) :
    (racks.set name (rack.putOscillator id retuned)).Sound graph := by
  refine sound.recast (fun place part => ?_) (fun place part => ?_) (sound.sinks_set sound.sinks_self)
  · rw [ring?_putOscillator]
    split
    · rename_i here
      obtain ⟨rfl, rfl⟩ := here
      rw [ring?_set_self, found, Option.map_some, Option.map_some, same]
    · rfl
  · rw [stage?_putOscillator]

/-- A ring is made on two new nodes. -/
theorem Sound.addRing (sound : (racks.set name rack).Sound graph) {id : String}
    (absent : rack.oscillators.find? id = none) {ring : RingOscillator} {level : Float32}
    (grown : graph.Grown after [.gain 1.0, .constant level] [])
    (output : ring.oscillator.output = graph.nodes.size)
    (control : ring.oscillator.control = graph.nodes.size + 1)
    (nodes : ring.oscillator.nodes = []) (generators : ring.oscillator.generators = [])
    (no_memo : ∀ memo, ¬ ring.Keeps memo) :
    (racks.set name (rack.putOscillator id ring)).Sound after := by
  have keys : ring.keys = [graph.nodes.size, graph.nodes.size + 1] := by
    simp only [RingOscillator.keys, output, control, nodes]
  have none_held : (racks.set name rack).held (.ring name id) = [] := by
    simp [held, ring?_set_self, absent]
  have output_node : after.node? graph.nodes.size = some (.gain 1.0) := grown.node?_new 0
  have control_node : after.node? (graph.nodes.size + 1) = some (.constant level) :=
    grown.node?_new 1
  have connections : after.connections = graph.connections := by simp [grown.connections]
  refine sound.putOscillator grown.wellFormed ?_ grown.rate (by simp [keys]) ?_ ?_ ?_ ?_ ?_
  · constructor
    case output => rw [output, output_node]
    case control =>
      rw [control, Graph.kind?, control_node]
      rfl
    case voices => simp [nodes]
    case generators => rw [generators, nodes]
    case kept => exact fun memo keeps => absurd keeps (no_memo memo)
    case voiced => exact fun some_nodes => absurd nodes some_nodes
  · intro key mem
    rw [keys] at mem
    simp only [List.mem_cons, List.not_mem_nil, or_false] at mem
    rcases mem with rfl | rfl
    · exact .inr (Nat.le_refl _)
    · exact .inr (Nat.le_succ _)
  · intro key
    rw [grown.contains_iff, none_held, keys]
    simp only [List.length_cons, List.length_nil, List.mem_cons, List.not_mem_nil, or_false,
      not_false_eq_true, and_true]
    rw [or_comm]
    refine or_congr ?_ Iff.rfl
    simp only [NodeKey]
    omega
  · intro key lives _
    obtain ⟨node, found⟩ := Option.isSome_iff_exists.mp lives
    exact (grown.lives found).trans found.symm
  · exact fun c mem => .inl (connections ▸ mem)
  · intro c mem driven
    have old := (sound.wellFormed.lt_size (connections ▸ mem)).1
    rw [driven, control] at old
    exact absurd old (Nat.not_lt.mpr (Nat.le_succ _))

omit [Fourier] in
/-- An oscillator that is there keeps its nodes. -/
theorem setOscillator_of_some (instrument : Instrument) (graph : Graph τ) {id : String}
    {ring : RingOscillator} (found : rack.oscillators.find? id = some ring) (partials : Partials) :
    rack.setOscillator instrument graph id partials = (rack.putOscillator id
      ⟨{ ring.oscillator with partials }, instrument.signals, instrument.weights id, ring.memos⟩,
      graph) := by
  have even : instrument.signals.length = (instrument.weights id).length := by simp
  simp only [Rack.setOscillator, found, RingOscillator.modulate, if_pos even]

omit [Fourier] in
/-- An oscillator that is not there is made on two new nodes. -/
theorem setOscillator_of_none (instrument : Instrument) (graph : Graph τ)
    (wellFormed : graph.WellFormed) {id : String} (absent : rack.oscillators.find? id = none)
    (partials : Partials) :
    ∃ after, rack.setOscillator instrument graph id partials = (rack.putOscillator id
        ⟨.around partials graph.nodes.size (graph.nodes.size + 1), instrument.signals,
          instrument.weights id, []⟩, after) ∧
      graph.Grown after [.gain 1.0, .constant Oscillator.defaultFrequency] [] := by
  have even : instrument.signals.length = (instrument.weights id).length := by simp
  have told := (graph.reported_log (.oscillatorCreated id)).grown wellFormed
  obtain ⟨after, create, grown⟩ :=
    RingOscillator.create_spec (graph.log (.oscillatorCreated id)) told.wellFormed partials
  refine ⟨after, ?_, told.trans grown⟩
  simp only [Rack.setOscillator, absent, create, RingOscillator.modulate, if_pos even]
  rfl

/-- To set an oscillator gives it its timbre and its modulation. -/
theorem Sound.setOscillator (sound : (racks.set name rack).Sound graph) (instrument : Instrument)
    (id : String) (partials : Partials) :
    ∃ ring after, rack.setOscillator instrument graph id partials =
        (rack.putOscillator id ring, after) ∧
      (racks.set name (rack.putOscillator id ring)).Sound after ∧
      racks.Spares name graph after ∧ after.connections = graph.connections ∧
      after.clock = graph.clock ∧ ring.oscillator.partials = partials ∧
      ring.signals = instrument.signals ∧ ring.weights = instrument.weights id := by
  cases found : rack.oscillators.find? id with
  | some ring =>
    exact ⟨_, graph, setOscillator_of_some instrument graph found partials,
      sound.retune found rfl, .of_reported (.refl _), rfl, rfl, rfl, rfl, rfl⟩
  | none =>
    obtain ⟨after, set, grown⟩ :=
      setOscillator_of_none instrument graph sound.wellFormed found partials
    refine ⟨_, after, set, ?_, ?_, ?_, grown.clock, rfl, rfl, rfl⟩
    · refine sound.addRing found grown rfl rfl rfl rfl ?_
      rintro memo (same | mem)
      · cases same
      · cases mem
    · refine sound.spares_of_owned fun key lives _ => ?_
      obtain ⟨node, found⟩ := Option.isSome_iff_exists.mp lives
      exact (grown.lives found).trans found.symm
    · simp [grown.connections]

/-- A gain that is there is turned to its factor. -/
theorem Sound.turnGain (sound : (racks.set name rack).Sound graph) {id : String}
    {stage : GainStage} (found : rack.gains.find? id = some stage) (factor : Float32) :
    let after := (graph.setValue stage.key .gain factor).1
    (racks.set name (rack.putGain id ⟨stage.key, factor⟩)).Sound after ∧
      racks.Spares name graph after := by
  intro after
  have found' : (racks.set name rack).stage? name id = some stage := stage?_set_self.trans found
  have kind := sound.stages name id stage found'
  have held_here : (racks.set name rack).held (.stage name id) = [stage.key] := by
    simp [held, found']
  have kept (key : NodeKey) (differs : key ≠ stage.key) : after.node? key = graph.node? key := by
    rw [Graph.node?_setValue, if_neg differs]
  constructor
  · refine sound.putGain (sound.wellFormed.setValue _ _ _) ?_ ?_ ?_ ?_ ?_ ?_
    · simp [after, kind]
    · simp [after, Graph.rate]
    · simp [held_here]
    · intro key
      rw [Graph.contains_eq_isSome_kind?, Graph.kind?_setValue,
        ← Graph.contains_eq_isSome_kind?, held_here, List.mem_singleton]
      constructor
      · intro lives
        by_cases here : key = stage.key
        · exact .inl here
        · exact .inr ⟨lives, here⟩
      · rintro (rfl | ⟨lives, -⟩)
        · rw [Graph.contains_eq_isSome_kind?, kind]
          rfl
        · exact lives
    · intro key _ apart
      exact kept key (by simpa [held_here] using apart)
    · simp [after]
  · refine sound.spares_of_owned fun key _ foreign => kept key fun same => foreign ?_
    exact same ▸ owns_stage found'

/-- A gain that is not there is added. -/
theorem Sound.addGain (sound : (racks.set name rack).Sound graph) {id : String}
    (absent : rack.gains.find? id = none) (factor : Float32) :
    let after := (graph.add (.gain factor)).2
    (racks.set name (rack.putGain id ⟨graph.nodes.size, factor⟩)).Sound after ∧
      racks.Spares name graph after := by
  intro after
  have grown := graph.grown_add sound.wellFormed (.gain factor) (by simp [Node.kind])
  have none_held : (racks.set name rack).held (.stage name id) = [] := by
    simp [held, stage?_set_self, absent]
  have kept (key : NodeKey) (lives : graph.contains key) : after.node? key = graph.node? key := by
    obtain ⟨node, found⟩ := Option.isSome_iff_exists.mp lives
    exact (grown.lives found).trans found.symm
  constructor
  · refine sound.putGain grown.wellFormed ?_ grown.rate (.inr (Nat.le_refl _)) ?_ ?_ ?_
    · simp [after, Graph.kind?_add, Node.kind]
    · intro key
      rw [grown.contains_iff, none_held]
      simp only [List.length_singleton, List.not_mem_nil, not_false_eq_true, and_true]
      rw [or_comm]
      refine or_congr ?_ Iff.rfl
      simp only [NodeKey]
      omega
    · exact fun key lives _ => kept key lives
    · simp [after]
  · exact sound.spares_of_owned fun key lives _ => kept key lives

omit [Fourier] in
theorem setGain_of_some (graph : Graph τ) {id : String} {stage : GainStage}
    (found : rack.gains.find? id = some stage) (factor : Float32) :
    rack.setGain graph id factor =
      (rack.putGain id ⟨stage.key, factor⟩, (graph.setValue stage.key .gain factor).1) := by
  simp only [Rack.setGain, found]

omit [Fourier] in
theorem setGain_of_none (graph : Graph τ) {id : String} (absent : rack.gains.find? id = none)
    (factor : Float32) :
    rack.setGain graph id factor =
      (rack.putGain id ⟨graph.nodes.size, factor⟩, (graph.add (.gain factor)).2) := by
  have turn : (Node.gain factor : Node τ).setValue? .gain factor = some (.gain factor) := rfl
  simp only [Rack.setGain, absent, Graph.addGain, Graph.add_fst]
  rw [graph.setValue_add turn]

/-- To set a gain gives it its factor. -/
theorem Sound.setGain (sound : (racks.set name rack).Sound graph) (id : String)
    (factor : Float32) :
    ∃ stage after, rack.setGain graph id factor = (rack.putGain id stage, after) ∧
      (racks.set name (rack.putGain id stage)).Sound after ∧ racks.Spares name graph after ∧
      after.connections = graph.connections ∧ after.clock = graph.clock ∧
      stage.factor = factor := by
  cases found : rack.gains.find? id with
  | some stage =>
    obtain ⟨sound', spares⟩ := sound.turnGain found factor
    exact ⟨_, _, setGain_of_some graph found factor, sound', spares, by simp, by simp, rfl⟩
  | none =>
    obtain ⟨sound', spares⟩ := sound.addGain found factor
    exact ⟨_, _, setGain_of_none graph found factor, sound', spares, by simp, by simp, rfl⟩

/-- The oscillators of a description are set one after another. -/
theorem Sound.setOscillators (sound : (racks.set name rack).Sound graph) (instrument : Instrument)
    (entries : List (String × Partials)) (once : (entries.map (·.1)).Nodup) :
    ∃ rack' after, entries.foldl (fun (rack, graph) (id, partials) =>
        rack.setOscillator instrument graph id partials) (rack, graph) = (rack', after) ∧
      (racks.set name rack').Sound after ∧ racks.Spares name graph after ∧
      after.connections = graph.connections ∧ after.clock = graph.clock ∧
      rack' = { rack with oscillators := rack'.oscillators } ∧
      (∀ id partials, (id, partials) ∈ entries → ∃ ring, rack'.oscillators.find? id = some ring ∧
        ring.oscillator.partials = partials ∧ ring.signals = instrument.signals ∧
        ring.weights = instrument.weights id) ∧
      ∀ id, id ∉ entries.map (·.1) → rack'.oscillators.find? id = rack.oscillators.find? id := by
  induction entries generalizing rack graph with
  | nil =>
    exact ⟨rack, graph, rfl, sound, .of_reported (.refl _), rfl, rfl, rfl, by simp,
      fun _ _ => rfl⟩
  | cons entry rest ih =>
    obtain ⟨first, timbre⟩ := entry
    obtain ⟨absent, once⟩ := List.nodup_cons.mp once
    obtain ⟨ring, middle, set_first, sound, spares, connections, clock, partials, signals,
      weights⟩ := sound.setOscillator instrument first timbre
    obtain ⟨rack', after, run, sound, spares', connections', clock', same, listed, others⟩ :=
      ih sound once
    refine ⟨rack', after, ?_, sound, spares.trans spares', connections'.trans connections,
      clock'.trans clock, same, ?_, ?_⟩
    · rw [List.foldl_cons]
      simp only [set_first]
      exact run
    · intro id asked mem
      rcases List.mem_cons.mp mem with here | later
      · cases here
        refine ⟨ring, ?_, partials, signals, weights⟩
        rw [others first absent, Rack.putOscillator, Roster.find?_insert_self]
      · exact listed id asked later
    · intro id outside
      simp only [List.map_cons, List.mem_cons, not_or] at outside
      rw [others id outside.2, Rack.putOscillator, Roster.find?_insert_of_ne outside.1]

/-- The gains of a description are set one after another. -/
theorem Sound.setGains (sound : (racks.set name rack).Sound graph)
    (entries : List (String × Float32)) (once : (entries.map (·.1)).Nodup) :
    ∃ rack' after, entries.foldl (fun (rack, graph) (id, factor) =>
        rack.setGain graph id factor) (rack, graph) = (rack', after) ∧
      (racks.set name rack').Sound after ∧ racks.Spares name graph after ∧
      after.connections = graph.connections ∧ after.clock = graph.clock ∧
      rack' = { rack with gains := rack'.gains } ∧
      (∀ id factor, (id, factor) ∈ entries → ∃ stage, rack'.gains.find? id = some stage ∧
        stage.factor = factor) ∧
      ∀ id, id ∉ entries.map (·.1) → rack'.gains.find? id = rack.gains.find? id := by
  induction entries generalizing rack graph with
  | nil =>
    exact ⟨rack, graph, rfl, sound, .of_reported (.refl _), rfl, rfl, rfl, by simp,
      fun _ _ => rfl⟩
  | cons entry rest ih =>
    obtain ⟨first, asked⟩ := entry
    obtain ⟨absent, once⟩ := List.nodup_cons.mp once
    obtain ⟨stage, middle, set_first, sound, spares, connections, clock, factor⟩ :=
      sound.setGain first asked
    obtain ⟨rack', after, run, sound, spares', connections', clock', same, listed, others⟩ :=
      ih sound once
    refine ⟨rack', after, ?_, sound, spares.trans spares', connections'.trans connections,
      clock'.trans clock, same, ?_, ?_⟩
    · rw [List.foldl_cons]
      simp only [set_first]
      exact run
    · intro id wanted mem
      rcases List.mem_cons.mp mem with here | later
      · cases here
        refine ⟨stage, ?_, factor⟩
        rw [others first absent, Rack.putGain, Roster.find?_insert_self]
      · exact listed id wanted later
    · intro id outside
      simp only [List.map_cons, List.mem_cons, not_or] at outside
      rw [others id outside.2, Rack.putGain, Roster.find?_insert_of_ne outside.1]

/-- A furnished rack holds the parts of the instrument beside those that it had. -/
theorem Sound.furnish (sound : (racks.set name rack).Sound graph) (instrument : Instrument) :
    ∃ rack' after, rack.furnish graph instrument = (rack', after) ∧
      (racks.set name rack').Sound after ∧ racks.Spares name graph after ∧
      after.connections = graph.connections ∧ after.clock = graph.clock ∧
      rack'.Furnished instrument ∧
      ∀ id role, rack'.HasRole id role → rack.HasRole id role ∨ instrument.HasRole id role := by
  have told := graph.reported_logAll (instrument.sharedIds.map .idShared)
  have sinks := sound.sinks_self
  obtain ⟨voiced, middle, set_oscillators, sound, spares, connections, clock, same, listed, others⟩ :=
    (sound.reported told).setOscillators instrument instrument.oscillators.entries
      instrument.oscillators.names_nodup
  obtain ⟨staged, after, set_gains, sound, spares', connections', clock', same', listed', others'⟩ :=
    sound.setGains instrument.gains.entries instrument.gains.names_nodup
  have same_oscillators : staged.oscillators = voiced.oscillators := congrArg (·.oscillators) same'
  have same_sinks : staged.sinks = rack.sinks :=
    (congrArg (·.sinks) same').trans (congrArg (·.sinks) same)
  have same_sources : staged.sources = rack.sources :=
    (congrArg (·.sources) same').trans (congrArg (·.sources) same)
  have same_numbers : staged.numbers = rack.numbers :=
    (congrArg (·.numbers) same').trans (congrArg (·.numbers) same)
  have same_gains : voiced.gains = rack.gains := congrArg (·.gains) same
  have numbers (id : String) : (instrument.numbers.entries.foldl
      (fun numbers (id, value) => numbers.insert id value) staged.numbers).find? id =
        (instrument.numbers.find? id).or (rack.numbers.find? id) := by
    rw [← same_numbers]
    exact Roster.find?_foldl_insert _ instrument.numbers.names_nodup _ id
  refine ⟨{ staged with
      numbers := instrument.numbers.entries.foldl
        (fun numbers (id, value) => numbers.insert id value) staged.numbers
      sources := staged.sources.insert instrument.source ()
      sinks := staged.sinks.insert instrument.sink Graph.destination
      active := instrument.oscillators.names }, after, ?_, ?_, ?_, ?_, ?_, ?_, ?_⟩
  · simp only [Rack.furnish, set_oscillators, set_gains]
  · refine sound.recast (fun place part => ?_) (fun place part => ?_)
      (sound.sinks_set fun id key sink => ?_)
    · rw [ring?_set, ring?_set]
    · rw [stage?_set, stage?_set]
    · rw [Roster.find?_insert] at sink
      split at sink
      · cases sink
        rfl
      · exact sinks id key (same_sinks ▸ sink)
  · exact (Spares.of_reported told).trans (spares.trans spares')
  · obtain ⟨_, _, told⟩ := told
    rw [connections', connections, told]
  · obtain ⟨_, _, told⟩ := told
    rw [clock', clock, told]
  · constructor
    case oscillators =>
      intro id partials found
      dsimp only
      rw [same_oscillators]
      exact listed id partials (Roster.find?_eq_some_iff.mp found)
    case gains =>
      intro id factor found
      exact listed' id factor (Roster.find?_eq_some_iff.mp found)
    case numbers =>
      intro id value found
      dsimp only
      rw [numbers, found]
      rfl
    case source => simp [Roster.contains]
    case sink => exact Roster.find?_insert_self ..
    case active => rfl
  · intro id role
    refine Rack.hasRole_furnished (fun id named => ?_) (fun id named => ?_) numbers ?_ ?_
    · exact (congrArg (·.find? id) same_oscillators).trans (others id named)
    · exact (others' id named).trans (congrArg (·.find? id) same_gains)
    · exact congrArg (·.insert instrument.source ()) same_sources
    · exact congrArg (·.insert instrument.sink Graph.destination) same_sinks

end Racks

end Patchbay
