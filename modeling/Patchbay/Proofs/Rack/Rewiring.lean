import Patchbay.Proofs.Rack.Seating

/-!
# Patching in any graph

However a rack and its graph came to be, as long as the nodes of the rack live, to patch it pulls
out all that leaves it and sets every oscillator and every gain by the last cable that has something
to say about it.
-/
namespace Patchbay

variable {τ : Type}

/-! ### What a list of cables comes to -/

/-- What comes once more stands where it came first. -/
theorem eraseDups_concat {α : Type} [DecidableEq α] (as : List α) (a : α) :
    (as ++ [a]).eraseDups = if a ∈ as.eraseDups then as.eraseDups else as.eraseDups ++ [a] := by
  rw [List.eraseDups_append]
  by_cases mem : a ∈ as
  · simp [List.removeAll, mem]
  · simp [List.removeAll, mem, List.eraseDups_cons]

/-- The node that a part puts its signal out of. -/
def Endpoint.outlet? {κ : Type} : Endpoint κ → Option κ
  | .oscillator output _ => some output
  | .gain key => some key
  | _ => none

/-- The node and the inlet by which a part takes a signal in. A gain takes it in as its input or,
where the cable says so, as its factor. -/
def Endpoint.inlet? {κ : Type} (plug : Plug) : Endpoint κ → Option (κ × Inlet)
  | .oscillator _ control => some (control, .knob .offset)
  | .gain key =>
    match plug with
    | .gain => some (key, .knob .gain)
    | .usual => some (key, .audio)
  | .sink key => some (key, .audio)
  | _ => none

namespace Rack

variable {rack : Rack} {graph after : Graph τ}

/-- The connection that a cable asks for, between parts that put out a signal and take one in. No
node is connected with itself. -/
def signal? (rack : Rack) (cable : Cable) : Option Connection := do
  let (feeding, fed) ← rack.ends? cable
  let source ← feeding.outlet?
  let (target, inlet) ← fed.inlet? cable.plug
  if source = target then none else some ⟨source, target, inlet⟩

/-- What a cable says about an oscillator: does it follow notes, and what is its control at? -/
def setting? (rack : Rack) (id : String) (cable : Cable) : Option (Bool × Float32) :=
  if cable.target = id then
    match rack.ends? cable with
    | some (.number frequency, .oscillator _ _) => some (false, frequency)
    | some (.source, .oscillator _ _) => some (true, 0.0)
    | _ => none
  else none

/-- What a cable says about a gain. -/
def factor? (rack : Rack) (id : String) (cable : Cable) : Option Float32 :=
  if cable.target = id then
    match rack.ends? cable with
    | some (.number factor, .gain _) => some factor
    | _ => none
  else none

/-- The connections that cables ask for, each where it is first asked for. -/
def signals (rack : Rack) (cables : List Cable) : List Connection :=
  (cables.filterMap rack.signal?).eraseDups

/-- The last that cables say about an oscillator. -/
def setting (rack : Rack) (id : String) (cables : List Cable) : Bool × Float32 :=
  (cables.filterMap (rack.setting? id)).getLastD (false, 440.0)

/-- The last that cables say about a gain. -/
def factor (rack : Rack) (id : String) (stage : GainStage) (cables : List Cable) : Float32 :=
  (cables.filterMap (rack.factor? id)).getLastD stage.factor

theorem signal?_eq (rack : Rack) (cable : Cable) : rack.signal? cable =
    match rack.effect? cable with
    | some (.connect source target inlet) =>
      if source = target then none else some ⟨source, target, inlet⟩
    | _ => none := by
  unfold signal? effect?
  rcases rack.ends? cable with _ | ⟨feeding, fed⟩
  · rfl
  · generalize cable.plug = plug
    cases feeding <;> cases fed <;> cases plug <;> rfl

theorem setting?_eq (rack : Rack) (id : String) (cable : Cable) : rack.setting? id cable =
    if cable.target = id then
      match rack.effect? cable with
      | some (.tune frequency) => some (false, frequency)
      | some .follow => some (true, 0.0)
      | _ => none
    else none := by
  unfold setting? effect?
  rcases rack.ends? cable with _ | ⟨feeding, fed⟩
  · rfl
  · cases feeding <;> cases fed <;> rfl

theorem factor?_eq (rack : Rack) (id : String) (cable : Cable) : rack.factor? id cable =
    if cable.target = id then
      match rack.effect? cable with
      | some (.turn _ factor) => some factor
      | _ => none
    else none := by
  unfold factor? effect?
  rcases rack.ends? cable with _ | ⟨feeding, fed⟩
  · rfl
  · cases feeding <;> cases fed <;> rfl

theorem signals_append (rack : Rack) (cables : List Cable) (cable : Cable) :
    rack.signals (cables ++ [cable]) =
      match rack.signal? cable with
      | some c => if c ∈ rack.signals cables then rack.signals cables
        else rack.signals cables ++ [c]
      | none => rack.signals cables := by
  rw [signals, List.filterMap_append, List.filterMap_cons, List.filterMap_nil]
  cases rack.signal? cable with
  | none => rw [List.append_nil, signals]
  | some c => exact eraseDups_concat _ c

/-- The last word on a list with one cable more is that of this cable, if it has any. -/
theorem getLastD_filterMap_append {α : Type} (f : Cable → Option α) (cables : List Cable)
    (cable : Cable) (a : α) : ((cables ++ [cable]).filterMap f).getLastD a =
      (f cable).getD ((cables.filterMap f).getLastD a) := by
  rw [List.filterMap_append]
  cases said : f cable <;> simp [said]

theorem setting_append (rack : Rack) (id : String) (cables : List Cable) (cable : Cable) :
    rack.setting id (cables ++ [cable]) =
      (rack.setting? id cable).getD (rack.setting id cables) :=
  getLastD_filterMap_append ..

theorem factor_append (rack : Rack) (id : String) (stage : GainStage) (cables : List Cable)
    (cable : Cable) : rack.factor id stage (cables ++ [cable]) =
      (rack.factor? id cable).getD (rack.factor id stage cables) :=
  getLastD_filterMap_append ..

theorem effect?_eq_some {cable : Cable} {effect : Effect NodeKey}
    (h : rack.effect? cable = some effect) : ∃ feeding fed,
      rack.part? cable.source = some feeding ∧ rack.part? cable.target = some fed ∧
        cable.plug.effect feeding fed = effect := by
  obtain ⟨⟨feeding, fed⟩, ends, rfl⟩ := Option.map_eq_some_iff.mp h
  obtain ⟨from_part, to_part⟩ := ends?_eq_some.mp ends
  exact ⟨feeding, fed, from_part, to_part, rfl⟩

/-! ### Signals -/

/-- A connection that leaves an oscillator or a gain of the rack. -/
def sends (rack : Rack) (c : Connection) : Bool :=
  rack.oscillators.values.any (c.source == ·.oscillator.output) ||
    rack.gains.values.any (c.source == ·.key)

/-- A connection that enters a frequency control of the rack. -/
def steers (rack : Rack) (c : Connection) : Bool :=
  rack.oscillators.values.any fun ring =>
    c.target == ring.oscillator.control && c.inlet == .knob .offset

/-- What stays neither leaves a part of the rack nor enters one of its controls. -/
theorem spares_eq (rack : Rack) (c : Connection) :
    rack.spares c = (!rack.sends c && !rack.steers c) := by
  rw [Bool.eq_iff_iff]
  simp only [spares, apartFrom, sends, steers, Bool.and_eq_true, List.all_eq_true,
    Bool.not_eq_true', Bool.or_eq_false_iff, List.any_eq_false, bne_iff_ne, beq_iff_eq,
    Bool.and_eq_false_iff, beq_eq_false_iff_ne, ne_eq, not_and_or]
  constructor
  · rintro ⟨rings, stages⟩
    exact ⟨⟨fun ring mem => (rings ring mem).1, stages⟩, fun ring mem => (rings ring mem).2⟩
  · rintro ⟨⟨outputs, stages⟩, controls⟩
    exact ⟨fun ring mem => ⟨outputs ring mem, controls ring mem⟩, stages⟩

/-- Signals come from outputs and gains. -/
theorem source_of_connect {cable : Cable} {source target : NodeKey} {inlet : Inlet}
    (h : rack.effect? cable = some (.connect source target inlet)) :
    (∃ site, rack.seat? site = some source ∧ site.kind = .gain) ∧
      ∀ c : Connection, c.source = source → rack.sends c = true := by
  obtain ⟨feeding, fed, from_part, -, effect⟩ := effect?_eq_some h
  have speaks := (Plug.ends_of_connect effect).1
  rcases part?_cases from_part with ⟨ring, found, rfl⟩ | ⟨stage, found, rfl⟩ | ⟨_, rfl⟩ | rfl |
    ⟨_, _, rfl⟩
  all_goals rcases speaks with ⟨_, same⟩ | same <;> cases same
  · refine ⟨⟨_, seat?_output found, rfl⟩, fun c leaves => ?_⟩
    have listed : ring ∈ rack.oscillators.values := Roster.mem_values.mpr ⟨_, found⟩
    exact Bool.or_eq_true_iff.mpr (.inl (List.any_eq_true.mpr ⟨ring, listed, by simp [leaves]⟩))
  · refine ⟨⟨_, seat?_stage found, rfl⟩, fun c leaves => ?_⟩
    have listed : stage ∈ rack.gains.values := Roster.mem_values.mpr ⟨_, found⟩
    exact Bool.or_eq_true_iff.mpr (.inr (List.any_eq_true.mpr ⟨stage, listed, by simp [leaves]⟩))

/-- Signals go to inlets that their targets have. -/
theorem Seated.target_of_connect (seated : rack.Seated graph) {cable : Cable}
    {source target : NodeKey} {inlet : Inlet}
    (h : rack.effect? cable = some (.connect source target inlet)) :
    ∃ site, rack.seat? site = some target ∧
      ∀ node : Node τ, node.kind = site.kind → node.accepts inlet = true := by
  obtain ⟨feeding, fed, -, to_part, effect⟩ := effect?_eq_some h
  rcases part?_cases to_part with ⟨ring, found, rfl⟩ | ⟨stage, found, rfl⟩ | ⟨_, rfl⟩ | rfl |
    ⟨key, found, rfl⟩
  · refine ⟨.control cable.target, ?_, fun node kind => ?_⟩
    · cases feeding <;> cases effect <;> exact seat?_control found
    · cases feeding <;> cases effect <;> cases node <;> cases kind <;> rfl
  · refine ⟨.stage cable.target, ?_, fun node kind => ?_⟩
    · cases feeding <;> cases effect <;> exact seat?_stage found
    · cases feeding <;> cases effect <;> cases node <;> cases kind <;> cases cable.plug <;> rfl
  · cases feeding <;> cases effect
  · cases feeding <;> cases effect
  · obtain rfl := seated.sinks _ _ found
    refine ⟨.destination, ?_, fun node kind => ?_⟩
    · cases feeding <;> cases effect <;> rfl
    · cases feeding <;> cases effect <;> cases node <;> cases kind <;> rfl

/-- A signal is made unless it ends where it starts. -/
theorem Seated.admits_iff (seated : rack.Seated graph) (lives : rack.Lives graph) {cable : Cable}
    {source target : NodeKey} {inlet : Inlet}
    (h : rack.effect? cable = some (.connect source target inlet)) :
    graph.admits ⟨source, target, inlet⟩ = true ↔ source ≠ target := by
  obtain ⟨⟨site, sits, gain⟩, -⟩ := source_of_connect h
  obtain ⟨site', sits', accepts⟩ := seated.target_of_connect h
  obtain ⟨node, found, kind⟩ := Option.map_eq_some_iff.mp (seated.kind_of_lives lives sits)
  obtain ⟨node', found', kind'⟩ := Option.map_eq_some_iff.mp (seated.kind_of_lives lives sits')
  have output : node.hasOutput = true := by
    rw [gain] at kind
    cases node <;> cases kind
    rfl
  rw [Graph.admits_iff]
  exact ⟨fun both => both.2.2, fun apart =>
    ⟨⟨node, found, output⟩, ⟨node', found', accepts node' kind'⟩, apart⟩⟩

/-! ### What patching comes to -/

/-- A rack and a graph after all cables were pulled out and some were plugged in. What the rack
spares is still connected, and what the cables ask for is connected behind it. Oscillators and gains
stand by the last cable that has something to say about them, or else by themselves. -/
structure Wired (rack : Rack) (graph : Graph τ) (cables : List Cable) (wired : Rack)
    (after : Graph τ) : Prop where
  connections : after.connections = graph.connections.filter rack.spares ++ rack.signals cables
  rings : ∀ id, wired.oscillators.find? id =
    (rack.oscillators.find? id).map (·.following (rack.setting id cables).1)
  rest : wired = { rack with oscillators := wired.oscillators }
  controls : ∀ id ring, rack.oscillators.find? id = some ring →
    after.node? ring.oscillator.control = some (.constant (rack.setting id cables).2)
  stages : ∀ id stage, rack.gains.find? id = some stage →
    after.node? stage.key = some (.gain (rack.factor id stage cables))
  others : ∀ key ∉ rack.knobs, after.node? key = graph.node? key
  clock : after.clock = graph.clock

variable {wired : Rack} {cables : List Cable}

theorem Wired.sameParts (stands : rack.Wired graph cables wired after) : rack.SameParts wired where
  rest := stands.rest
  oscillators := fun id => by
    rw [stands.rings, Option.map_map]
    rfl

/-- What a cable does hangs on the parts alone. -/
theorem Wired.effect? (stands : rack.Wired graph cables wired after) (cable : Cable) :
    wired.effect? cable = rack.effect? cable := by
  simp only [Rack.effect?, ends?, Racks.part?_sameParts stands.sameParts]

/-- Once all cables are out, everything stands by itself. -/
theorem Seated.unplug (seated : rack.Seated graph) (lives : rack.Lives graph) :
    rack.Wired graph [] (rack.unplug graph).1 (rack.unplug graph).2 := by
  have unplugged : Racks.Unplugged rack graph (rack.unplug graph).2 := by
    refine Racks.unplugged_of_kinds seated.wellFormed (fun id ring found => ?_)
      (fun id stage found => seated.kind_of_lives lives (seat?_stage found))
      (rack.stage_keys_nodup fun _ _ _ _ => seated.stage_inj)
    obtain ⟨node, lives, kind⟩ :=
      Option.map_eq_some_iff.mp (seated.kind_of_lives lives (seat?_control found))
    cases node <;> cases kind
    exact ⟨_, lives⟩
  constructor
  case connections => exact unplugged.connections.trans (List.append_nil _).symm
  case rings => exact rack.find?_unplug graph
  case rest => rfl
  case controls => exact unplugged.controls
  case stages => exact unplugged.gains
  case others =>
    intro key apart
    rw [knobs, List.mem_append, not_or] at apart
    exact unplugged.untouched key apart.1 apart.2
  case clock => exact unplugged.clock

/-- Nodes are of the kinds that they were of before. -/
theorem Wired.kind? (stands : rack.Wired graph cables wired after) (seated : rack.Seated graph)
    (lives : rack.Lives graph) (key : NodeKey) : after.kind? key = graph.kind? key := by
  by_cases knob : key ∈ rack.knobs
  · rcases mem_knobs.mp knob with ⟨id, ring, found, rfl⟩ | ⟨id, stage, found, rfl⟩
    · rw [Graph.kind?, stands.controls id ring found,
        seated.kind_of_lives lives (seat?_control found)]
      rfl
    · rw [Graph.kind?, stands.stages id stage found,
        seated.kind_of_lives lives (seat?_stage found)]
      rfl
  · rw [Graph.kind?, stands.others key knob, Graph.kind?]

/-- A cable that brings a signal. -/
theorem Wired.connect (stands : rack.Wired graph cables wired after) (seated : rack.Seated graph)
    (lives : rack.Lives graph) {cable : Cable} {source target : NodeKey} {inlet : Inlet}
    (effect : rack.effect? cable = some (.connect source target inlet)) :
    rack.Wired graph (cables ++ [cable]) wired (after.connect source target inlet).1 := by
  have unsaid (id : String) : rack.setting? id cable = none := by simp [setting?_eq, effect]
  have unsaid' (id : String) : rack.factor? id cable = none := by simp [factor?_eq, effect]
  have admits : after.admits ⟨source, target, inlet⟩ = true ↔ source ≠ target := by
    rw [Graph.admits_congr (stands.kind? seated lives _) (stands.kind? seated lives _)]
    exact seated.admits_iff lives effect
  have present : ⟨source, target, inlet⟩ ∈ after.connections ↔
      ⟨source, target, inlet⟩ ∈ rack.signals cables := by
    rw [stands.connections, List.mem_append]
    refine or_iff_right fun kept => ?_
    have spared := (List.mem_filter.mp kept).2
    rw [spares_eq, (source_of_connect effect).2 _ rfl] at spared
    cases spared
  constructor
  case connections =>
    rw [Graph.connections_connect, signals_append]
    simp only [admits, present]
    rw [stands.connections]
    by_cases same : source = target
    · simp [signal?_eq, effect, same]
    · by_cases mem : ⟨source, target, inlet⟩ ∈ rack.signals cables
      · simp [signal?_eq, effect, same, mem]
      · simp [signal?_eq, effect, same, mem]
  case rings => simpa only [setting_append, unsaid, Option.getD_none] using stands.rings
  case rest => exact stands.rest
  case controls =>
    simpa only [setting_append, unsaid, Option.getD_none, Graph.node?_connect] using stands.controls
  case stages =>
    simpa only [factor_append, unsaid', Option.getD_none, Graph.node?_connect] using stands.stages
  case others => simpa only [Graph.node?_connect] using stands.others
  case clock => rw [(after.connect_rest source target inlet).2.1, stands.clock]

/-- A cable that has something to say about an oscillator. -/
theorem Wired.retune (stands : rack.Wired graph cables wired after) (seated : rack.Seated graph)
    {cable : Cable} {ring : RingOscillator}
    (found : rack.oscillators.find? cable.target = some ring) {setting : Bool × Float32}
    (silent : rack.signal? cable = none) (unsaid : ∀ id, rack.factor? id cable = none)
    (said : rack.setting? cable.target cable = some setting) :
    rack.Wired graph (cables ++ [cable]) (wired.retune after cable.target setting).1
      (wired.retune after cable.target setting).2 := by
  have spared {id : String} (differs : id ≠ cable.target) : rack.setting? id cable = none :=
    if_neg (Ne.symm differs)
  have found' : wired.oscillators.find? cable.target = some
      (ring.following (rack.setting cable.target cables).1) := by
    rw [stands.rings, found, Option.map_some]
  have retuned : wired.retune after cable.target setting =
      (wired.putOscillator cable.target (ring.following setting.1),
        (after.setValue ring.oscillator.control .offset setting.2).1) := by
    simp only [Rack.retune, modifyOscillator, found']
    rfl
  rw [retuned]
  constructor
  case connections =>
    rw [signals_append, silent]
    exact (Graph.setValue_rest _ _ _ _).2.1.trans stands.connections
  case rings =>
    intro id
    rw [putOscillator, Roster.find?_insert, setting_append]
    by_cases here : id = cable.target
    · rw [if_pos here, here, found, said]
      rfl
    · rw [if_neg here, spared here, stands.rings]
      rfl
  case rest => rw [putOscillator, stands.rest]
  case controls =>
    intro id ring' found'
    rw [Graph.node?_setValue, setting_append]
    by_cases here : id = cable.target
    · subst here
      obtain rfl := Option.some.inj (found.symm.trans found')
      rw [if_pos rfl, stands.controls _ _ found, said]
      rfl
    · have apart : ring'.oscillator.control ≠ ring.oscillator.control :=
        fun same => here (seated.control_inj found' found same)
      rw [if_neg apart, stands.controls _ _ found', spared here]
      rfl
  case stages =>
    intro id stage found'
    have apart : stage.key ≠ ring.oscillator.control := (seated.control_ne_stage found found').symm
    rw [Graph.node?_setValue, if_neg apart, stands.stages _ _ found', factor_append, unsaid]
    rfl
  case others =>
    intro key outside
    have apart : key ≠ ring.oscillator.control := fun same =>
      outside (same ▸ control_mem_knobs found)
    rw [Graph.node?_setValue, if_neg apart, stands.others key outside]
  case clock => rw [(Graph.setValue_rest _ _ _ _).2.2.1, stands.clock]

/-- A cable that has something to say about a gain. -/
theorem Wired.turn (stands : rack.Wired graph cables wired after) (seated : rack.Seated graph)
    {cable : Cable} {stage : GainStage} (found : rack.gains.find? cable.target = some stage)
    {factor : Float32} (silent : rack.signal? cable = none)
    (unsaid : ∀ id, rack.setting? id cable = none)
    (said : rack.factor? cable.target cable = some factor) :
    rack.Wired graph (cables ++ [cable]) wired (after.setValue stage.key .gain factor).1 := by
  have spared {id : String} (differs : id ≠ cable.target) : rack.factor? id cable = none :=
    if_neg (Ne.symm differs)
  constructor
  case connections =>
    rw [signals_append, silent]
    exact (Graph.setValue_rest _ _ _ _).2.1.trans stands.connections
  case rings => simpa only [setting_append, unsaid, Option.getD_none] using stands.rings
  case rest => exact stands.rest
  case controls =>
    intro id ring found'
    have apart := seated.control_ne_stage found' found
    rw [Graph.node?_setValue, if_neg apart, stands.controls _ _ found', setting_append, unsaid]
    rfl
  case stages =>
    intro id stage' found'
    rw [Graph.node?_setValue, factor_append]
    by_cases here : id = cable.target
    · subst here
      obtain rfl := Option.some.inj (found.symm.trans found')
      rw [if_pos rfl, stands.stages _ _ found, said]
      rfl
    · have apart : stage'.key ≠ stage.key :=
        fun same => here (seated.stage_inj found' found same)
      rw [if_neg apart, stands.stages _ _ found', spared here]
      rfl
  case others =>
    intro key outside
    have apart : key ≠ stage.key := fun same => outside (same ▸ stage_mem_knobs found)
    rw [Graph.node?_setValue, if_neg apart, stands.others key outside]
  case clock => rw [(Graph.setValue_rest _ _ _ _).2.2.1, stands.clock]

/-- A cable that does nothing is reported. -/
theorem Wired.log (stands : rack.Wired graph cables wired after) {cable : Cable}
    (silent : rack.signal? cable = none) (unsaid : ∀ id, rack.setting? id cable = none)
    (unsaid' : ∀ id, rack.factor? id cable = none) (event : Event τ) :
    rack.Wired graph (cables ++ [cable]) wired (after.log event) where
  connections := by
    rw [signals_append, silent]
    exact stands.connections
  rings := by simpa only [setting_append, unsaid, Option.getD_none] using stands.rings
  rest := stands.rest
  controls := by
    simpa only [setting_append, unsaid, Option.getD_none, Graph.node?_log] using stands.controls
  stages := by
    simpa only [factor_append, unsaid', Option.getD_none, Graph.node?_log] using stands.stages
  others := stands.others
  clock := stands.clock

/-- What is tuned or follows notes is an oscillator. -/
theorem ring_of_setting {cable : Cable} {setting : Bool × Float32}
    (said : rack.setting? cable.target cable = some setting) :
    ∃ ring, rack.oscillators.find? cable.target = some ring := by
  simp only [setting?_eq, if_true] at said
  cases does : rack.effect? cable with
  | none =>
    rw [does] at said
    cases said
  | some effect =>
    obtain ⟨feeding, fed, -, to_part, rfl⟩ := effect?_eq_some does
    rw [does] at said
    rcases part?_cases to_part with ⟨ring, found, rfl⟩ | ⟨_, _, rfl⟩ | ⟨_, rfl⟩ | rfl | ⟨_, _, rfl⟩
    · exact ⟨ring, found⟩
    all_goals cases feeding <;> cases said

/-- What is turned is a gain. -/
theorem stage_of_turn {cable : Cable} {key : NodeKey} {factor : Float32}
    (does : rack.effect? cable = some (.turn key factor)) :
    ∃ stage, rack.gains.find? cable.target = some stage ∧ stage.key = key := by
  obtain ⟨feeding, fed, -, to_part, effect⟩ := effect?_eq_some does
  have is_gain := Plug.end_of_turn effect
  rcases part?_cases to_part with ⟨_, _, rfl⟩ | ⟨stage, found, rfl⟩ | ⟨_, rfl⟩ | rfl | ⟨_, _, rfl⟩
  all_goals cases is_gain
  exact ⟨stage, found, rfl⟩

/-- One more cable is plugged in. -/
theorem Wired.plug (stands : rack.Wired graph cables wired after) (seated : rack.Seated graph)
    (lives : rack.Lives graph) (cable : Cable) :
    rack.Wired graph (cables ++ [cable]) (wired.plug after cable).1 (wired.plug after cable).2 := by
  have idle (effect : rack.effect? cable = none ∨ rack.effect? cable = some .nothing)
      (event : Event τ) : rack.Wired graph (cables ++ [cable]) wired (after.log event) := by
    refine stands.log ?_ (fun id => ?_) (fun id => ?_) event <;>
      rcases effect with effect | effect <;> simp [signal?_eq, setting?_eq, factor?_eq, effect]
  have tuned {setting : Bool × Float32} (said : rack.setting? cable.target cable = some setting)
      (silent : rack.signal? cable = none) (unsaid : ∀ id, rack.factor? id cable = none) :
      rack.Wired graph (cables ++ [cable]) (wired.retune after cable.target setting).1
        (wired.retune after cable.target setting).2 := by
    obtain ⟨ring, found⟩ := ring_of_setting said
    exact stands.retune seated found silent unsaid said
  rw [plug_eq, stands.effect?]
  cases effect : rack.effect? cable with
  | none => exact idle (.inl effect) _
  | some does =>
    cases does with
    | connect source target inlet => exact stands.connect seated lives effect
    | tune frequency =>
      exact tuned (by simp [setting?_eq, effect]) (by simp [signal?_eq, effect])
        fun id => by simp [factor?_eq, effect]
    | follow =>
      exact tuned (by simp [setting?_eq, effect]) (by simp [signal?_eq, effect])
        fun id => by simp [factor?_eq, effect]
    | turn key factor =>
      obtain ⟨stage, found, rfl⟩ := stage_of_turn effect
      exact stands.turn seated found (by simp [signal?_eq, effect])
        (fun id => by simp [setting?_eq, effect]) (by simp [factor?_eq, effect])
    | nothing => exact idle (.inr effect) _

/-- Cables are plugged in one after another, once all others are out. -/
theorem Seated.wired_patch (seated : rack.Seated graph) (lives : rack.Lives graph)
    (cables : List Cable) :
    rack.Wired graph cables (rack.patch graph cables).1 (rack.patch graph cables).2 := by
  induction cables using List.reverseRecOn with
  | nil => exact seated.unplug lives
  | append_singleton rest cable ih =>
    rw [Rack.patch, List.foldl_append]
    exact ih.plug seated lives cable

/-- What cables ask for leaves the rack. -/
theorem sends_of_mem_signals {c : Connection} (mem : c ∈ rack.signals cables) :
    rack.sends c = true := by
  obtain ⟨cable, -, asked⟩ := List.mem_filterMap.mp (List.mem_eraseDups.mp mem)
  rw [signal?_eq] at asked
  split at asked
  · rename_i source target inlet effect
    split at asked
    · cases asked
    · cases asked
      exact (source_of_connect effect).2 _ rfl
  · cases asked

/-- However a rack came to be, whatever it is connected with and wherever its knobs stand: as long
as its nodes live, patching leaves just these connections from its oscillators and gains, the ones
that the cables ask for, each once and in the order of the cables. All other connections stay in
their order before them, but for those into a frequency control. Every oscillator follows notes and
every control and every gain stands as the last cable says that has something to say about it, or
else as they do by themselves. Nothing else is changed. -/
theorem patch_rewires [Fourier] [TimeAxis τ] (built : rack.Built graph) (lives : rack.Lives graph)
    (cables : List Cable) :
    let patched := (rack.patch graph cables).1
    let after := (rack.patch graph cables).2
    after.connections.filter rack.sends = rack.signals cables ∧
    after.connections =
      graph.connections.filter (fun c => !rack.sends c && !rack.steers c) ++ rack.signals cables ∧
    (∀ id, patched.oscillators.find? id =
      (rack.oscillators.find? id).map (·.following (rack.setting id cables).1)) ∧
    (∀ id ring, rack.oscillators.find? id = some ring →
      after.node? ring.oscillator.control = some (.constant (rack.setting id cables).2)) ∧
    (∀ id stage, rack.gains.find? id = some stage →
      after.node? stage.key = some (.gain (rack.factor id stage cables))) ∧
    (∀ key ∉ rack.knobs, after.node? key = graph.node? key) ∧
    patched = { rack with oscillators := patched.oscillators } ∧ after.clock = graph.clock := by
  intro patched after
  obtain ⟨connections, rings, rest, controls, stages, others, clock⟩ :=
    built.seated.wired_patch lives cables
  rw [funext rack.spares_eq] at connections
  refine ⟨?_, connections, rings, controls, stages, others, rest, clock⟩
  have kept : (graph.connections.filter fun c => !rack.sends c && !rack.steers c).filter
      rack.sends = [] := by
    refine List.filter_eq_nil_iff.mpr fun c mem sent => ?_
    have stays := (List.mem_filter.mp mem).2
    rw [sent] at stays
    cases stays
  have asked : (rack.signals cables).filter rack.sends = rack.signals cables :=
    List.filter_eq_self.mpr fun c => sends_of_mem_signals
  rw [connections, List.filter_append, kept, asked, List.nil_append]

/-- Cables come twice, lead from a gain to itself, to nowhere and to an oscillator that hides a
gain. Before, a node that belongs to no rack drives a control, and each oscillator has a voice. -/
theorem patch_rewires_tangle :
    let timbre := Partials.ofList [(2.0, 1.0)]
    let instrument : Instrument := { Instrument.bare "in" "out" with
      oscillators := .ofList [("car", timbre), ("mod", timbre)]
      gains := .ofList [("amp", 0.5), ("mod", 0.25)]
      numbers := .ofList [("low", 110.0), ("high", 880.0)] }
    let furnished := Rack.empty.furnish (Graph.atRate 8.0 : Graph Float) instrument
    let played := furnished.1.patch furnished.2
      [⟨"a", "in", "car", .usual⟩, ⟨"b", "mod", "car", .usual⟩, ⟨"c", "low", "amp", .gain⟩]
    let sung := (played.1.schedule played.2 ⟨220.0, 0.0, 1.0⟩ 0.5).state
    let rack := sung.1
    let graph := [.addGain 1.0, .connect 9 2 (.knob .offset), .connect 9 5 .audio].foldl
      Graph.perform sung.2
    let cables : List Cable :=
      [⟨"d", "car", "amp", .gain⟩, ⟨"e", "amp", "amp", .usual⟩, ⟨"f", "amp", "out", .usual⟩,
        ⟨"g", "high", "car", .usual⟩, ⟨"h", "car", "amp", .gain⟩, ⟨"i", "low", "car", .usual⟩,
        ⟨"j", "low", "mod", .gain⟩, ⟨"k", "in", "mod", .usual⟩, ⟨"l", "car", "gone", .usual⟩,
        ⟨"m", "car", "amp", .usual⟩]
    let after := (rack.patch graph cables).2
    rack.Built graph ∧ rack.Lives graph ∧
      graph.connections = [⟨3, 2, .knob .offset⟩, ⟨2, 7, .knob .frequency⟩, ⟨7, 1, .audio⟩,
        ⟨4, 8, .knob .frequency⟩, ⟨8, 3, .audio⟩, ⟨9, 2, .knob .offset⟩, ⟨9, 5, .audio⟩] ∧
      rack.signals cables = [⟨1, 5, .knob .gain⟩, ⟨5, 0, .audio⟩, ⟨1, 5, .audio⟩] ∧
      rack.setting "car" cables = (false, 110.0) ∧ rack.setting "mod" cables = (true, 0.0) ∧
      after.connections.filter rack.sends = rack.signals cables ∧
      (∀ id ring, rack.oscillators.find? id = some ring →
        after.node? ring.oscillator.control = some (.constant (rack.setting id cables).2)) ∧
      ∀ id stage, rack.gains.find? id = some stage →
        after.node? stage.key = some (.gain (rack.factor id stage cables)) :=
  have built := ((((Rack.Built.empty (.create (8.0 : Float32))).furnish _).patch _).schedule
    _ _).run _
  have lives := by decide +kernel
  have ⟨signals, _, _, controls, stages, _⟩ := patch_rewires built lives _
  ⟨built, lives, by decide +kernel, by decide +kernel, by decide +kernel, by decide +kernel,
    signals, controls, stages⟩

end Rack

end Patchbay
