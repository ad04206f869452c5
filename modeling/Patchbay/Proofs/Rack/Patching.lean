import Mathlib.Data.List.Nodup
import Patchbay.Proofs.Rack.Furnishing
import Patchbay.Proofs.Rack.Rosters

/-!
# Patching a rack

To patch a rack is to pull all cables out and to plug the new ones in. Once all cables are out,
every frequency control stands at the default, every gain at its factor, and nothing but voices is
connected. What the cables then do is told by the ids of the instrument alone.
-/
namespace Patchbay

variable {τ : Type}

/-- A ring that plays at a fixed frequency. -/
def RingOscillator.fixed (ring : RingOscillator) : RingOscillator :=
  { ring with oscillator := { ring.oscillator with followsNote := false } }

/-- A ring that follows notes or plays at a frequency of its own. -/
def RingOscillator.following (ring : RingOscillator) (follows : Bool) : RingOscillator :=
  { ring with oscillator := { ring.oscillator with followsNote := follows } }

namespace Rack

/-- Connections that stay when a ring is pulled out. -/
def apartFrom (ring : RingOscillator) (c : Connection) : Bool :=
  c.source != ring.oscillator.output &&
    !(c.target == ring.oscillator.control && c.inlet == .knob .offset)

theorem unplugOscillator_spec (ring : RingOscillator) (graph : Graph τ)
    (wellFormed : graph.WellFormed) {level : Float32}
    (control : graph.node? ring.oscillator.control = some (.constant level)) :
    ∃ after, unplugOscillator ring.oscillator graph = (ring.fixed.oscillator, after) ∧
      after.WellFormed ∧ after.clock = graph.clock ∧
      after.connections = graph.connections.filter (apartFrom ring) ∧
      ∀ key, after.node? key = if key = ring.oscillator.control then
        some (.constant Oscillator.defaultFrequency) else graph.node? key := by
  refine ⟨(((graph.disconnect ring.oscillator.output).1.disconnectInlet ring.oscillator.control
    (.knob .offset)).1.setValue ring.oscillator.control .offset
      Oscillator.defaultFrequency).1, rfl, ?_, ?_, ?_, ?_⟩
  · exact ((wellFormed.keepConnections _).keepConnections _).setValue _ _ _
  · simp [Graph.disconnect, Graph.disconnectInlet]
  · simp only [Graph.setValue_rest, Graph.disconnectInlet, Graph.disconnect,
      Graph.keepConnections_rest, List.filter_filter]
    refine List.filter_congr fun c _ => ?_
    rw [apartFrom, Bool.and_comm]
  · intro key
    rw [Graph.node?_setValue]
    simp only [Graph.disconnectInlet, Graph.disconnect, Graph.node?_keepConnections, control]
    rfl

/-- All rings of a list are pulled out. -/
theorem foldl_unplugOscillator (rings : List RingOscillator) (graph : Graph τ)
    (wellFormed : graph.WellFormed) (controls : ∀ ring ∈ rings,
      ∃ level, graph.node? ring.oscillator.control = some (.constant level)) :
    ∃ after, rings.foldl (fun graph ring => (unplugOscillator ring.oscillator graph).2) graph =
        after ∧
      after.WellFormed ∧ after.clock = graph.clock ∧
      after.connections = graph.connections.filter (fun c => rings.all (apartFrom · c)) ∧
      ∀ key, after.node? key = if key ∈ rings.map (·.oscillator.control) then
        some (.constant Oscillator.defaultFrequency) else graph.node? key := by
  induction rings generalizing graph with
  | nil => exact ⟨graph, rfl, wellFormed, rfl, by simp, by simp⟩
  | cons ring rest ih =>
    obtain ⟨level, control⟩ := controls ring List.mem_cons_self
    obtain ⟨middle, pulled, wellFormed, clock, connections, nodes⟩ :=
      unplugOscillator_spec ring graph wellFormed control
    have controls (other : RingOscillator) (mem : other ∈ rest) :
        ∃ level, middle.node? other.oscillator.control = some (.constant level) := by
      rw [nodes]
      split
      · exact ⟨_, rfl⟩
      · exact controls other (List.mem_cons_of_mem _ mem)
    obtain ⟨after, run, wellFormed, clock', connections', nodes'⟩ := ih middle wellFormed controls
    refine ⟨after, ?_, wellFormed, clock'.trans clock, ?_, ?_⟩
    · rw [List.foldl_cons, pulled]
      exact run
    · rw [connections', connections, List.filter_filter]
      refine List.filter_congr fun c _ => ?_
      rw [List.all_cons, Bool.and_comm]
    · intro key
      rw [nodes', nodes]
      by_cases here : key = ring.oscillator.control
      · simp [here]
      · simp [here]

theorem unplugGain_spec (stage : GainStage) (graph : Graph τ) (wellFormed : graph.WellFormed)
    (kind : graph.kind? stage.key = some .gain) :
    (unplugGain graph stage).WellFormed ∧ (unplugGain graph stage).clock = graph.clock ∧
      (unplugGain graph stage).connections =
        graph.connections.filter (·.source != stage.key) ∧
      ∀ key, (unplugGain graph stage).node? key = if key = stage.key then
        some (.gain stage.factor) else graph.node? key := by
  refine ⟨(wellFormed.keepConnections _).setValue _ _ _, ?_, ?_, ?_⟩
  · simp [unplugGain, Graph.disconnect]
  · simp [unplugGain, Graph.disconnect]
  · intro key
    obtain ⟨node, found, is_gain⟩ := Option.map_eq_some_iff.mp kind
    cases node <;> cases is_gain
    rw [unplugGain, Graph.node?_setValue]
    simp only [Graph.disconnect, Graph.node?_keepConnections, found]
    rfl

/-- All stages of a list are pulled out. -/
theorem foldl_unplugGain (stages : List GainStage) (once : (stages.map (·.key)).Nodup)
    (graph : Graph τ) (wellFormed : graph.WellFormed)
    (kinds : ∀ stage ∈ stages, graph.kind? stage.key = some .gain) :
    ∃ after, stages.foldl unplugGain graph = after ∧
      after.WellFormed ∧ after.clock = graph.clock ∧
      after.connections =
        graph.connections.filter (fun c => stages.all fun stage => c.source != stage.key) ∧
      (∀ key, key ∉ stages.map (·.key) → after.node? key = graph.node? key) ∧
      ∀ stage ∈ stages, after.node? stage.key = some (.gain stage.factor) := by
  induction stages generalizing graph with
  | nil => exact ⟨graph, rfl, wellFormed, rfl, by simp, by simp, by simp⟩
  | cons stage rest ih =>
    obtain ⟨absent, once⟩ := List.nodup_cons.mp once
    obtain ⟨wellFormed, clock, connections, nodes⟩ :=
      unplugGain_spec stage graph wellFormed (kinds stage List.mem_cons_self)
    have kinds (other : GainStage) (mem : other ∈ rest) :
        (unplugGain graph stage).kind? other.key = some .gain := by
      rw [Graph.kind?, nodes]
      split
      · rfl
      · exact kinds other (List.mem_cons_of_mem _ mem)
    obtain ⟨after, run, wellFormed, clock', connections', others, levels⟩ :=
      ih once (unplugGain graph stage) wellFormed kinds
    refine ⟨after, run, wellFormed, clock'.trans clock, ?_, ?_, ?_⟩
    · rw [connections', connections, List.filter_filter]
      refine List.filter_congr fun c _ => ?_
      rw [List.all_cons, Bool.and_comm]
    · intro key outside
      simp only [List.map_cons, List.mem_cons, not_or] at outside
      rw [others key outside.2, nodes, if_neg outside.1]
    · intro other mem
      rcases List.mem_cons.mp mem with rfl | later
      · rw [others _ absent, nodes, if_pos rfl]
      · exact levels other later

theorem snd_unplug (rack : Rack) (graph : Graph τ) : (rack.unplug graph).2 =
    rack.gains.values.foldl unplugGain (rack.oscillators.values.foldl
      (fun graph ring => (unplugOscillator ring.oscillator graph).2) graph) := by
  simp only [unplug, modifyOscillators, Roster.snd_mapState, Roster.values, List.foldl_map]
  rfl

theorem find?_unplug (rack : Rack) (graph : Graph τ) (id : String) :
    (rack.unplug graph).1.oscillators.find? id =
      (rack.oscillators.find? id).map RingOscillator.fixed :=
  Roster.find?_mapState (g := fun _ => RingOscillator.fixed) (fun _ _ _ => rfl) _ _ id

/-- Connections that stay when all cables of a rack are pulled out. -/
def spares (rack : Rack) (c : Connection) : Bool :=
  (rack.oscillators.values.all (apartFrom · c)) &&
    rack.gains.values.all fun stage => c.source != stage.key

theorem spares_iff {rack : Rack} {c : Connection} : rack.spares c = true ↔
    (∀ id ring, rack.oscillators.find? id = some ring → c.source ≠ ring.oscillator.output ∧
      ¬ (c.target = ring.oscillator.control ∧ c.inlet = .knob .offset)) ∧
    ∀ id stage, rack.gains.find? id = some stage → c.source ≠ stage.key := by
  simp only [spares, apartFrom, Bool.and_eq_true, List.all_eq_true, Roster.mem_values, bne_iff_ne,
    Bool.not_eq_true', Bool.and_eq_false_iff, beq_eq_false_iff_ne, not_and_or]
  constructor
  · rintro ⟨rings, stages⟩
    exact ⟨fun id ring found => rings ring ⟨id, found⟩, fun id stage found => stages stage ⟨id, found⟩⟩
  · rintro ⟨rings, stages⟩
    constructor
    · rintro ring ⟨id, found⟩
      exact rings id ring found
    · rintro stage ⟨id, found⟩
      exact stages id stage found

end Rack

/-- Where no two gains share a stage, the stages are listed once. -/
theorem Rack.stage_keys_nodup (rack : Rack) (apart : ∀ id id' stage stage',
    rack.gains.find? id = some stage → rack.gains.find? id' = some stage' →
      stage.key = stage'.key → id = id') : (rack.gains.values.map (·.key)).Nodup := by
  rw [Roster.values, List.map_map]
  refine List.Nodup.map_on ?_ (List.Nodup.of_map _ rack.gains.names_nodup)
  rintro ⟨id, stage⟩ mem ⟨id', stage'⟩ mem' same
  have found := Roster.find?_eq_some_iff.mpr mem
  have found' := Roster.find?_eq_some_iff.mpr mem'
  obtain rfl := apart id id' stage stage' found found' same
  rw [found] at found'
  cases found'
  rfl

namespace Racks

variable [Fourier] {racks : Racks} {name : String} {rack : Rack} {graph after : Graph τ}

theorem Sound.control_node (sound : racks.Sound graph) {place id : String} {ring : RingOscillator}
    (found : racks.ring? place id = some ring) :
    ∃ level, graph.node? ring.oscillator.control = some (.constant level) := by
  have kind := (sound.rings place id ring found).control
  obtain ⟨node, found, is_constant⟩ := Option.map_eq_some_iff.mp kind
  cases node <;> cases is_constant
  exact ⟨_, found⟩

/-- An output stage is no frequency control. -/
theorem Sound.output_ne_control (sound : racks.Sound graph) {place id place' id' : String}
    {ring ring' : RingOscillator} (found : racks.ring? place id = some ring)
    (found' : racks.ring? place' id' = some ring') :
    ring.oscillator.output ≠ ring'.oscillator.control := by
  intro same
  have output := (sound.rings place id ring found).output
  obtain ⟨level, control⟩ := sound.control_node found'
  rw [same, control] at output
  cases output

/-- A gain stage of a description is no output stage. -/
theorem Sound.output_ne_stage (sound : racks.Sound graph) {place id place' id' : String}
    {ring : RingOscillator} {stage : GainStage} (found : racks.ring? place id = some ring)
    (found' : racks.stage? place' id' = some stage) : ring.oscillator.output ≠ stage.key := by
  intro same
  have mine : ring.oscillator.output ∈ racks.held (.ring place id) :=
    (mem_held_ring found).mpr List.mem_cons_self
  have theirs : ring.oscillator.output ∈ racks.held (.stage place' id') :=
    (mem_held_stage found').mpr same
  cases sound.ledger.apart _ _ _ mine theirs

theorem Sound.control_ne_stage (sound : racks.Sound graph) {place id place' id' : String}
    {ring : RingOscillator} {stage : GainStage} (found : racks.ring? place id = some ring)
    (found' : racks.stage? place' id' = some stage) : ring.oscillator.control ≠ stage.key := by
  intro same
  have mine : ring.oscillator.control ∈ racks.held (.ring place id) :=
    (mem_held_ring found).mpr (RingOscillator.control_mem_keys _)
  have theirs : ring.oscillator.control ∈ racks.held (.stage place' id') :=
    (mem_held_stage found').mpr same
  cases sound.ledger.apart _ _ _ mine theirs

theorem Sound.stage_keys_nodup (sound : (racks.set name rack).Sound graph) :
    (rack.gains.values.map (·.key)).Nodup := by
  refine rack.stage_keys_nodup fun id id' stage stage' found found' same => ?_
  have mine : stage.key ∈ (racks.set name rack).held (.stage name id) :=
    (mem_held_stage (stage?_set_self.trans found)).mpr rfl
  have theirs : stage.key ∈ (racks.set name rack).held (.stage name id') :=
    (mem_held_stage (stage?_set_self.trans found')).mpr same
  injection sound.ledger.apart _ _ _ mine theirs

/-- Once all cables are pulled out, controls and gains stand where they stand by themselves. -/
structure Unplugged (rack : Rack) (graph after : Graph τ) : Prop where
  wellFormed : after.WellFormed
  clock : after.clock = graph.clock
  connections : after.connections = graph.connections.filter rack.spares
  controls : ∀ id ring, rack.oscillators.find? id = some ring →
    after.node? ring.oscillator.control = some (.constant Oscillator.defaultFrequency)
  gains : ∀ id stage, rack.gains.find? id = some stage →
    after.node? stage.key = some (.gain stage.factor)
  untouched : ∀ key, key ∉ rack.oscillators.values.map (·.oscillator.control) →
    key ∉ rack.gains.values.map (·.key) → after.node? key = graph.node? key

omit [Fourier] in
/-- Where controls are constants and the stages of gains are gains, each of its own, all cables are
pulled out. -/
theorem unplugged_of_kinds (wellFormed : graph.WellFormed)
    (controls : ∀ id ring, rack.oscillators.find? id = some ring →
      ∃ level, graph.node? ring.oscillator.control = some (.constant level))
    (stages : ∀ id stage, rack.gains.find? id = some stage → graph.kind? stage.key = some .gain)
    (once : (rack.gains.values.map (·.key)).Nodup) : Unplugged rack graph (rack.unplug graph).2 := by
  obtain ⟨middle, pulled, wellFormed, clock, connections, nodes⟩ :=
    Rack.foldl_unplugOscillator rack.oscillators.values graph wellFormed fun ring mem =>
      (Roster.mem_values.mp mem).elim fun id found => controls id ring found
  have not_control (stage : GainStage) (mem : stage ∈ rack.gains.values) :
      stage.key ∉ rack.oscillators.values.map (·.oscillator.control) := by
    intro mem_control
    obtain ⟨ring, ring_mem, same⟩ := List.mem_map.mp mem_control
    obtain ⟨id, found⟩ := Roster.mem_values.mp ring_mem
    obtain ⟨id', found'⟩ := Roster.mem_values.mp mem
    obtain ⟨level, constant⟩ := controls id ring found
    have gain := stages id' stage found'
    rw [← same, Graph.kind?, constant] at gain
    cases gain
  obtain ⟨after, pulled', wellFormed, clock', connections', others, factors⟩ :=
    Rack.foldl_unplugGain rack.gains.values once middle wellFormed
      fun stage mem => by
        obtain ⟨id, found⟩ := Roster.mem_values.mp mem
        rw [Graph.kind?, nodes, if_neg (not_control stage mem)]
        exact stages id stage found
  rw [Rack.snd_unplug, pulled, pulled']
  refine ⟨wellFormed, clock'.trans clock, ?_, ?_, ?_, ?_⟩
  · rw [connections', connections, List.filter_filter]
    refine List.filter_congr fun c _ => ?_
    rw [Rack.spares, Bool.and_comm]
  · intro id ring found
    have mem : ring ∈ rack.oscillators.values := Roster.mem_values.mpr ⟨id, found⟩
    rw [others, nodes, if_pos (List.mem_map_of_mem mem)]
    intro mem_stage
    obtain ⟨stage, stage_mem, same⟩ := List.mem_map.mp mem_stage
    exact not_control stage stage_mem (same ▸ List.mem_map_of_mem mem)
  · exact fun id stage found => factors stage (Roster.mem_values.mpr ⟨id, found⟩)
  · intro key no_control no_stage
    rw [others key no_stage, nodes, if_neg no_control]

theorem Sound.unplugged (sound : (racks.set name rack).Sound graph) :
    Unplugged rack graph (rack.unplug graph).2 :=
  unplugged_of_kinds sound.wellFormed
    (fun _ _ found => sound.control_node (ring?_set_self.trans found))
    (fun id stage found => sound.stages name id stage (stage?_set_self.trans found))
    sound.stage_keys_nodup

/-- The kinds of nodes stay. -/
theorem Unplugged.kind? (unplugged : Unplugged rack graph after)
    (sound : (racks.set name rack).Sound graph) (key : NodeKey) :
    after.kind? key = graph.kind? key := by
  by_cases at_stage : key ∈ rack.gains.values.map (·.key)
  · obtain ⟨stage, mem, rfl⟩ := List.mem_map.mp at_stage
    obtain ⟨id, found⟩ := Roster.mem_values.mp mem
    rw [Graph.kind?, unplugged.gains id stage found,
      sound.stages name id stage (stage?_set_self.trans found)]
    rfl
  · by_cases at_control : key ∈ rack.oscillators.values.map (·.oscillator.control)
    · obtain ⟨ring, mem, rfl⟩ := List.mem_map.mp at_control
      obtain ⟨id, found⟩ := Roster.mem_values.mp mem
      rw [Graph.kind?, unplugged.controls id ring found,
        (sound.rings name id ring (ring?_set_self.trans found)).control]
      rfl
    · rw [Graph.kind?, unplugged.untouched key at_control at_stage]
      rfl

/-- Output stages stay as they are. -/
theorem Unplugged.output (unplugged : Unplugged rack graph after)
    (sound : (racks.set name rack).Sound graph) {place id : String} {ring : RingOscillator}
    (found : (racks.set name rack).ring? place id = some ring) :
    after.node? ring.oscillator.output = graph.node? ring.oscillator.output := by
  refine unplugged.untouched _ (fun at_control => ?_) (fun at_stage => ?_)
  · obtain ⟨other, mem, same⟩ := List.mem_map.mp at_control
    obtain ⟨part, found'⟩ := Roster.mem_values.mp mem
    exact sound.output_ne_control found (ring?_set_self.trans found') same.symm
  · obtain ⟨stage, mem, same⟩ := List.mem_map.mp at_stage
    obtain ⟨part, found'⟩ := Roster.mem_values.mp mem
    exact sound.output_ne_stage found (stage?_set_self.trans found') same.symm

theorem Unplugged.spares (unplugged : Unplugged rack graph after)
    (sound : (racks.set name rack).Sound graph) : racks.Spares name graph after := by
  refine sound.spares_of_owned fun key _ foreign => unplugged.untouched key ?_ ?_
  · intro at_control
    obtain ⟨ring, mem, rfl⟩ := List.mem_map.mp at_control
    obtain ⟨id, found⟩ := Roster.mem_values.mp mem
    exact foreign (owns_ring (ring?_set_self.trans found)
      (RingOscillator.control_mem_keys _))
  · intro at_stage
    obtain ⟨stage, mem, rfl⟩ := List.mem_map.mp at_stage
    obtain ⟨id, found⟩ := Roster.mem_values.mp mem
    exact foreign (owns_stage (stage?_set_self.trans found))

/-- To pull out all cables takes out what they made and nothing else. -/
theorem Sound.unplug (sound : (racks.set name rack).Sound graph) :
    ∃ rack' after, rack.unplug graph = (rack', after) ∧
      (racks.set name rack').Sound after ∧ racks.Spares name graph after ∧
      Unplugged rack graph after ∧
      rack' = { rack with oscillators := rack'.oscillators } ∧
      ∀ id, rack'.oscillators.find? id = (rack.oscillators.find? id).map RingOscillator.fixed := by
  have unplugged := sound.unplugged
  have sound_after : (racks.set name rack).Sound (rack.unplug graph).2 :=
    sound.rewire unplugged.wellFormed (unplugged.kind? sound)
      (fun _ _ _ found => unplugged.output sound found) (by simp only [Graph.rate, unplugged.clock])
      fun c mem => .inl (List.mem_of_mem_filter (unplugged.connections ▸ mem))
  refine ⟨(rack.unplug graph).1, _, rfl, ?_, unplugged.spares sound, unplugged, rfl,
    rack.find?_unplug graph⟩
  refine sound_after.recast (fun place id => ?_) (fun place id => ?_)
    (sound.sinks_set sound.sinks_self)
  · rw [ring?_set, ring?_set, rack.find?_unplug]
    split
    · rw [Option.map_map]
      rfl
    · rfl
  · rw [stage?_set, stage?_set]
    rfl

/-- To pull out a rack touches only connections from it or into it. -/
theorem Sound.spares_of_foreign (sound : (racks.set name rack).Sound graph) {c : Connection}
    (source : ∃ place, place ≠ name ∧ racks.Owns place c.source)
    (target : c.target = Graph.destination ∨ ∃ place, place ≠ name ∧ racks.Owns place c.target) :
    rack.spares c = true := by
  have foreign {key : NodeKey} (theirs : ∃ place, place ≠ name ∧ racks.Owns place key)
      (mine : (racks.set name rack).Owns name key) : False := by
    obtain ⟨place, differs, owned⟩ := theirs
    exact differs (sound.owner_unique ((owns_set_of_ne differs rack key).mpr owned) mine)
  have not_destination {key : NodeKey} (mine : (racks.set name rack).Owns name key) :
      key ≠ Graph.destination := by
    rintro rfl
    obtain ⟨holder, -, mem⟩ := mine
    exact sound.ledger.inner holder mem
  simp only [Rack.spares, Bool.and_eq_true, List.all_eq_true, bne_iff_ne]
  constructor
  · intro ring mem
    obtain ⟨id, found⟩ := Roster.mem_values.mp mem
    have found : (racks.set name rack).ring? name id = some ring := ring?_set_self.trans found
    simp only [Rack.apartFrom, Bool.and_eq_true, bne_iff_ne]
    refine ⟨fun same => foreign source (same ▸ owns_ring found List.mem_cons_self), ?_⟩
    have mine : (racks.set name rack).Owns name ring.oscillator.control :=
      owns_ring found (RingOscillator.control_mem_keys _)
    have apart : c.target ≠ ring.oscillator.control := by
      intro same
      rcases target with destined | theirs
      · exact not_destination mine (same.symm.trans destined)
      · exact foreign theirs (same ▸ mine)
    simp [apart]
  · intro stage mem
    obtain ⟨id, found⟩ := Roster.mem_values.mp mem
    have found : (racks.set name rack).stage? name id = some stage := stage?_set_self.trans found
    exact fun same => foreign source (same ▸ owns_stage found)

end Racks

/-! ### Cables -/

/-- The racks hold the same parts, which may differ in whether they follow notes. -/
structure Rack.SameParts (rack other : Rack) : Prop where
  rest : other = { rack with oscillators := other.oscillators }
  oscillators : ∀ id, (other.oscillators.find? id).map RingOscillator.fixed =
    (rack.oscillators.find? id).map RingOscillator.fixed

namespace Rack

variable {rack middle other : Rack}

theorem SameParts.refl (rack : Rack) : rack.SameParts rack := ⟨rfl, fun _ => rfl⟩

theorem SameParts.trans (first : rack.SameParts middle) (second : middle.SameParts other) :
    rack.SameParts other where
  rest := by rw [second.rest, first.rest]
  oscillators := fun id => (second.oscillators id).trans (first.oscillators id)

/-- A ring of the one rack is a ring of the other, up to whether it follows notes. -/
theorem SameParts.ring (same : rack.SameParts other) {id : String} {ring : RingOscillator}
    (found : other.oscillators.find? id = some ring) :
    ∃ old, rack.oscillators.find? id = some old ∧ old.fixed = ring.fixed := by
  have both := same.oscillators id
  rw [found] at both
  exact Option.map_eq_some_iff.mp both.symm

theorem SameParts.symm (same : rack.SameParts other) : other.SameParts rack where
  rest := by rw [same.rest]
  oscillators := fun id => (same.oscillators id).symm

theorem SameParts.contains (same : rack.SameParts other) (id : String) :
    other.oscillators.contains id = rack.oscillators.contains id := by
  have both := congrArg Option.isSome (same.oscillators id)
  simpa [Roster.contains] using both

theorem SameParts.hasRole (same : rack.SameParts other) (id : String) (role : Role) :
    other.HasRole id role ↔ rack.HasRole id role := by
  cases role with
  | oscillator => simp only [HasRole, same.contains]
  | _ =>
    rw [same.rest]
    rfl

theorem SameParts.furnished (same : rack.SameParts other) {instrument : Instrument}
    (furnished : rack.Furnished instrument) : other.Furnished instrument := by
  constructor
  case oscillators =>
    intro id partials asked
    obtain ⟨ring, found, timbre, signals, weights⟩ := furnished.oscillators id partials asked
    obtain ⟨new, found, alike⟩ := same.symm.ring found
    refine ⟨new, found, ?_, ?_, ?_⟩
    · exact (congrArg (·.oscillator.partials) alike).trans timbre
    · exact (congrArg (·.signals) alike).trans signals
    · exact (congrArg (·.weights) alike).trans weights
  case gains => rw [same.rest]; exact furnished.gains
  case numbers => rw [same.rest]; exact furnished.numbers
  case source => rw [same.rest]; exact furnished.source
  case sink => rw [same.rest]; exact furnished.sink
  case active => rw [same.rest]; exact furnished.active

theorem part?_cases {id : String} {part : Part} (h : rack.part? id = some part) :
    (∃ ring, rack.oscillators.find? id = some ring ∧
      part = .oscillator ring.oscillator.output ring.oscillator.control) ∨
    (∃ stage, rack.gains.find? id = some stage ∧ part = .gain stage.key) ∨
    (∃ value, part = .number value) ∨ part = .source ∨
    ∃ key, rack.sinks.find? id = some key ∧ part = .sink key := by
  unfold Rack.part? at h
  cases oscillator : rack.oscillators.find? id with
  | some ring =>
    rw [oscillator] at h
    cases h
    exact .inl ⟨ring, rfl, rfl⟩
  | none =>
    rw [oscillator] at h
    cases gain : rack.gains.find? id with
    | some stage =>
      rw [gain] at h
      cases h
      exact .inr (.inl ⟨stage, rfl, rfl⟩)
    | none =>
      rw [gain] at h
      cases number : rack.numbers.find? id with
      | some value =>
        rw [number] at h
        cases h
        exact .inr (.inr (.inl ⟨value, rfl⟩))
      | none =>
        simp only [number] at h
        split at h
        · cases h
          exact .inr (.inr (.inr (.inl rfl)))
        · obtain ⟨key, found, rfl⟩ := Option.map_eq_some_iff.mp h
          exact .inr (.inr (.inr (.inr ⟨key, found, rfl⟩)))

end Rack

/-- Signals come from oscillators and gains and go to oscillators, gains and sinks. -/
theorem Plug.ends_of_connect {κ : Type} {plug : Plug} {feeding fed : Endpoint κ} {source target : κ}
    {inlet : Inlet} (h : plug.effect feeding fed = .connect source target inlet) :
    ((∃ control, feeding = .oscillator source control) ∨ feeding = .gain source) ∧
      ((∃ output, fed = .oscillator output target) ∨ fed = .gain target ∨ fed = .sink target) := by
  cases feeding <;> cases fed <;> cases h
  · exact ⟨.inl ⟨_, rfl⟩, .inl ⟨_, rfl⟩⟩
  · exact ⟨.inl ⟨_, rfl⟩, .inr (.inl rfl)⟩
  · exact ⟨.inl ⟨_, rfl⟩, .inr (.inr rfl)⟩
  · exact ⟨.inr rfl, .inl ⟨_, rfl⟩⟩
  · exact ⟨.inr rfl, .inr (.inl rfl)⟩
  · exact ⟨.inr rfl, .inr (.inr rfl)⟩

theorem Plug.end_of_turn {κ : Type} {plug : Plug} {feeding fed : Endpoint κ} {stage : κ}
    {factor : Float32} (h : plug.effect feeding fed = .turn stage factor) : fed = .gain stage := by
  cases feeding <;> cases fed <;> cases h
  rfl

namespace Racks

variable [Fourier] {racks : Racks} {name : String} {rack : Rack} {graph after : Graph τ}

/-- A cable connects nodes of its instrument with each other or with the destination. -/
theorem Sound.plugSignal (sound : (racks.set name rack).Sound graph) {feeding fed : Part}
    {source_id target_id : String} (from_part : rack.part? source_id = some feeding)
    (to_part : rack.part? target_id = some fed) {plug : Plug} {source target : NodeKey}
    {inlet : Inlet} (h : plug.effect feeding fed = .connect source target inlet) :
    (racks.set name rack).Sound (graph.connect source target inlet).1 := by
  obtain ⟨speaks, listens⟩ := Plug.ends_of_connect h
  have owned_source : (racks.set name rack).Owns name source ∧
      ∀ place id ring, (racks.set name rack).ring? place id = some ring →
        source ≠ ring.oscillator.control := by
    rcases Rack.part?_cases from_part with ⟨ring, found, rfl⟩ | ⟨stage, found, rfl⟩ | ⟨_, rfl⟩ |
      rfl | ⟨_, _, rfl⟩
    · have same : source = ring.oscillator.output := by
        rcases speaks with ⟨_, same⟩ | same <;> cases same
        rfl
      have found : (racks.set name rack).ring? name source_id = some ring :=
        ring?_set_self.trans found
      exact ⟨same ▸ owns_ring found List.mem_cons_self,
        fun _ _ _ found' => same ▸ sound.output_ne_control found found'⟩
    · have same : source = stage.key := by
        rcases speaks with ⟨_, same⟩ | same <;> cases same
        rfl
      have found : (racks.set name rack).stage? name source_id = some stage :=
        stage?_set_self.trans found
      exact ⟨same ▸ owns_stage found,
        fun _ _ _ found' => same ▸ (sound.control_ne_stage found' found).symm⟩
    all_goals rcases speaks with ⟨_, same⟩ | same <;> cases same
  have owned_target : target = Graph.destination ∨ (racks.set name rack).Owns name target := by
    rcases Rack.part?_cases to_part with ⟨ring, found, rfl⟩ | ⟨stage, found, rfl⟩ | ⟨_, rfl⟩ |
      rfl | ⟨key, found, rfl⟩
    · have same : target = ring.oscillator.control := by
        rcases listens with ⟨_, same⟩ | same | same <;> cases same
        rfl
      exact .inr (same ▸ owns_ring (ring?_set_self.trans found)
        (RingOscillator.control_mem_keys _))
    · have same : target = stage.key := by
        rcases listens with ⟨_, same⟩ | same | same <;> cases same
        rfl
      exact .inr (same ▸ owns_stage (stage?_set_self.trans found))
    · rcases listens with ⟨_, same⟩ | same | same <;> cases same
    · rcases listens with ⟨_, same⟩ | same | same <;> cases same
    · have same : target = key := by
        rcases listens with ⟨_, same⟩ | same | same <;> cases same
        rfl
      exact .inl (same.trans (sound.sinks_self target_id key found))
  refine sound.rewire (sound.wellFormed.connect source target inlet) (fun key => ?_)
    (fun _ _ _ _ => Graph.node?_connect ..) ?_ fun c mem => ?_
  · simp only [Graph.kind?, Graph.node?_connect]
  · simp only [Graph.rate, Graph.connect_rest]
  · rw [Graph.connections_connect] at mem
    split at mem
    · rcases List.mem_append.mp mem with old | new
      · exact .inl old
      · rw [List.mem_singleton.mp new]
        exact .inr ⟨⟨name, owned_source.1, owned_target⟩, owned_source.2⟩
    · exact .inl mem

/-- A knob of a gain may be turned. -/
theorem Sound.turnStage (sound : racks.Sound graph) {place id : String} {stage : GainStage}
    (found : racks.stage? place id = some stage) (factor : Float32) :
    racks.Sound (graph.setValue stage.key .gain factor).1 := by
  refine sound.rewire (sound.wellFormed.setValue _ _ _) (fun key => by simp)
    (fun _ _ ring found' => ?_) (by simp [Graph.rate]) fun c mem => .inl (by simpa using mem)
  rw [Graph.node?_setValue, if_neg (sound.output_ne_stage found' found)]

/-- A frequency control may be turned. -/
theorem Sound.turnControl (sound : racks.Sound graph) {place id : String} {ring : RingOscillator}
    (found : racks.ring? place id = some ring) (level : Float32) :
    racks.Sound (graph.setValue ring.oscillator.control .offset level).1 := by
  refine sound.rewire (sound.wellFormed.setValue _ _ _) (fun key => by simp)
    (fun _ _ _ found' => ?_) (by simp [Graph.rate]) fun c mem => .inl (by simpa using mem)
  rw [Graph.node?_setValue, if_neg (sound.output_ne_control found' found)]

/-- A change of the knob of one node of an instrument spares the others. -/
theorem Sound.spares_setValue (sound : (racks.set name rack).Sound graph) {key : NodeKey}
    (mine : (racks.set name rack).Owns name key) (knob : Knob) (value : Float32) :
    racks.Spares name graph (graph.setValue key knob value).1 := by
  refine sound.spares_of_owned fun other _ foreign => ?_
  have apart : other ≠ key := fun same => foreign (same ▸ mine)
  rw [Graph.node?_setValue, if_neg apart]

omit [Fourier] in
/-- An oscillator that is set to follow notes or not keeps its parts. -/
theorem sameParts_putOscillator {id : String} {ring retuned : RingOscillator}
    (found : rack.oscillators.find? id = some ring) (alike : retuned.fixed = ring.fixed) :
    rack.SameParts (rack.putOscillator id retuned) where
  rest := rfl
  oscillators := by
    intro other
    rw [Rack.putOscillator, Roster.find?_insert]
    split
    · rename_i here
      rw [here, found, Option.map_some, Option.map_some, alike]
    · rfl

/-- One cable is plugged in. -/
theorem Sound.plug (sound : (racks.set name rack).Sound graph) (cable : Cable) :
    ∃ rack' after, rack.plug graph cable = (rack', after) ∧
      (racks.set name rack').Sound after ∧ racks.Spares name graph after ∧
      after.clock = graph.clock ∧ rack.SameParts rack' := by
  have loose (event : Event τ) :
      (racks.set name rack).Sound (graph.log event) ∧ racks.Spares name graph (graph.log event) :=
    ⟨sound.reported (graph.reported_log event), .of_reported (graph.reported_log event)⟩
  -- what happens to the oscillator at the target
  have tuned (f : Oscillator → Graph τ → Oscillator × Graph τ) (follows : Bool) (level : Float32)
      (acts : ∀ oscillator graph, f oscillator graph = ({ oscillator with followsNote := follows },
        (graph.setValue oscillator.control .offset level).1)) :
      ∃ rack' after, rack.modifyOscillator graph cable.target f = (rack', after) ∧
        (racks.set name rack').Sound after ∧ racks.Spares name graph after ∧
        after.clock = graph.clock ∧ rack.SameParts rack' := by
    cases found : rack.oscillators.find? cable.target with
    | none =>
      refine ⟨rack, graph, ?_, sound, .of_reported (.refl _), rfl, .refl _⟩
      simp only [Rack.modifyOscillator, found]
    | some ring =>
      have found' : (racks.set name rack).ring? name cable.target = some ring :=
        ring?_set_self.trans found
      refine ⟨rack.putOscillator cable.target
        { ring with oscillator := { ring.oscillator with followsNote := follows } }, _, ?_,
        (sound.turnControl found' level).retune found rfl,
        sound.spares_setValue (owns_ring found' (RingOscillator.control_mem_keys _)) _ _,
        by simp, sameParts_putOscillator found rfl⟩
      simp only [Rack.modifyOscillator, found, RingOscillator.withOscillator, acts]
  unfold Rack.plug
  cases from_part : rack.part? cable.source with
  | none => exact ⟨rack, _, rfl, (loose _).1, (loose _).2, rfl, .refl _⟩
  | some feeding =>
    cases to_part : rack.part? cable.target with
    | none => exact ⟨rack, _, rfl, (loose _).1, (loose _).2, rfl, .refl _⟩
    | some fed =>
      cases effect : cable.plug.effect feeding fed with
      | connect source target inlet =>
        refine ⟨rack, _, by simp only [effect], sound.plugSignal from_part to_part effect, ?_, ?_,
          .refl _⟩
        · exact fun _ _ _ _ => Graph.node?_connect ..
        · simp
      | tune frequency =>
        simp only [effect]
        exact tuned _ false frequency fun _ _ => rfl
      | follow =>
        simp only [effect]
        exact tuned _ true 0.0 fun _ _ => rfl
      | turn stage factor =>
        have is_gain := Plug.end_of_turn effect
        rcases Rack.part?_cases to_part with ⟨_, _, rfl⟩ | ⟨found_stage, found, rfl⟩ | ⟨_, rfl⟩ |
          rfl | ⟨_, _, rfl⟩
        all_goals cases is_gain
        have found' : (racks.set name rack).stage? name cable.target = some found_stage :=
          stage?_set_self.trans found
        exact ⟨rack, _, by simp only [effect], sound.turnStage found' factor,
          sound.spares_setValue (owns_stage found') _ _, by simp, .refl _⟩
      | nothing =>
        obtain ⟨sound, spares⟩ := loose (.cableUnsupported cable.id)
        exact ⟨rack, _, by simp only [effect], sound, spares, rfl, .refl _⟩

/-- To patch a rack is to pull all cables out and to plug in the new ones. -/
theorem Sound.patch (sound : (racks.set name rack).Sound graph) (cables : List Cable) :
    ∃ rack' after, rack.patch graph cables = (rack', after) ∧
      (racks.set name rack').Sound after ∧ racks.Spares name graph after ∧
      after.clock = graph.clock ∧ rack.SameParts rack' := by
  obtain ⟨bare, middle, unplug, sound, spares, unplugged, same_rest, fixed⟩ := sound.unplug
  have clock := unplugged.clock
  have same : rack.SameParts bare := by
    refine ⟨same_rest, fun id => ?_⟩
    rw [fixed, Option.map_map]
    rfl
  rw [Rack.patch, unplug]
  clear unplug unplugged fixed same_rest
  induction cables generalizing bare middle with
  | nil => exact ⟨bare, middle, rfl, sound, spares, clock, same⟩
  | cons cable rest ih =>
    obtain ⟨next, plugged, plug, sound, spares', clock', same'⟩ := sound.plug cable
    rw [List.foldl_cons]
    simp only [plug]
    exact ih next plugged sound (spares.trans spares') (clock'.trans clock) (same.trans same')

end Racks

end Patchbay
