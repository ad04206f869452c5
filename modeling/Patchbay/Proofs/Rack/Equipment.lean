import Patchbay.Proofs.Rack.Realization

/-!
# What patching a rack leaves

A rack is its own legend: an id stands for the part that the rack holds under it, whatever the
instrument may describe. The board that cables make of a rack hangs on the parts alone, not on the
keys of their nodes, on the voices or on what was plugged in before.
-/
namespace Patchbay

variable {τ : Type}

namespace Rack

/-- What an id of the rack stands for, with nodes under the names of sites. -/
def site? (rack : Rack) (id : String) : Option (Endpoint Site) :=
  if rack.oscillators.contains id then some (.oscillator (.output id) (.control id))
  else if rack.gains.contains id then some (.gain (.stage id))
  else
    match rack.numbers.find? id with
    | some value => some (.number value)
    | none =>
      if rack.sources.contains id then some .source
      else if rack.sinks.contains id then some (.sink .destination)
      else none

/-- The part under an id, from where the nodes at its sites are. -/
theorem part?_eq_map_site? {rack : Rack} {keyOf : Site → NodeKey} {id : String}
    (voice : ∀ ring, rack.oscillators.find? id = some ring →
      keyOf (.output id) = ring.oscillator.output ∧ keyOf (.control id) = ring.oscillator.control)
    (stage : ∀ stage, rack.gains.find? id = some stage → keyOf (.stage id) = stage.key)
    (sink : ∀ key, rack.sinks.find? id = some key → keyOf .destination = key) :
    rack.part? id = (rack.site? id).map (Endpoint.map keyOf) := by
  unfold part? site? Roster.contains
  cases ring : rack.oscillators.find? id with
  | some found =>
    obtain ⟨output, control⟩ := voice found ring
    simp [Endpoint.map, output, control]
  | none =>
    cases gain : rack.gains.find? id with
    | some found => simp [Endpoint.map, stage found gain]
    | none =>
      cases number : rack.numbers.find? id with
      | some value => simp [Endpoint.map]
      | none =>
        cases source : rack.sources.find? id with
        | some _ => simp [Endpoint.map]
        | none =>
          cases out : rack.sinks.find? id with
          | some key => simp [Endpoint.map, sink key out]
          | none => simp

/-- The factor that the instrument gave a gain. -/
def factorOf (rack : Rack) (id : String) : Float32 :=
  (rack.gains.find? id).elim 0.0 (·.factor)

/-- The board that cables make of a rack. -/
def board (rack : Rack) (cables : List Cable) : Board :=
  cables.foldl (Board.plug rack.site?) (.bare rack.factorOf)

/-- The board hangs on the parts and their settings alone. -/
theorem board_congr {rack other : Rack}
    (oscillators : ∀ id, other.oscillators.contains id = rack.oscillators.contains id)
    (gains : ∀ id, (other.gains.find? id).map (·.factor) = (rack.gains.find? id).map (·.factor))
    (numbers : other.numbers = rack.numbers) (sources : other.sources = rack.sources)
    (sinks : other.sinks = rack.sinks) (cables : List Cable) :
    other.board cables = rack.board cables := by
  have held (id : String) : other.gains.contains id = rack.gains.contains id := by
    have both := congrArg Option.isSome (gains id)
    simpa [Roster.contains] using both
  have sites : other.site? = rack.site? := by
    funext id
    simp only [site?, oscillators, held, numbers, sources, sinks]
  have factors : other.factorOf = rack.factorOf := by
    funext id
    have same := gains id
    simp only [factorOf]
    cases found : rack.gains.find? id <;> cases found' : other.gains.find? id <;>
      simp_all
  rw [board, board, sites, factors]

/-- The nodes whose knobs cables turn: frequency controls and gains. -/
def knobs (rack : Rack) : List NodeKey :=
  rack.oscillators.values.map (·.oscillator.control) ++ rack.gains.values.map (·.key)

theorem control_mem_knobs {rack : Rack} {id : String} {ring : RingOscillator}
    (found : rack.oscillators.find? id = some ring) : ring.oscillator.control ∈ rack.knobs :=
  List.mem_append_left _ (List.mem_map_of_mem (Roster.mem_values.mpr ⟨id, found⟩))

theorem stage_mem_knobs {rack : Rack} {id : String} {stage : GainStage}
    (found : rack.gains.find? id = some stage) : stage.key ∈ rack.knobs :=
  List.mem_append_right _ (List.mem_map_of_mem (Roster.mem_values.mpr ⟨id, found⟩))

theorem mem_knobs {rack : Rack} {key : NodeKey} : key ∈ rack.knobs ↔
    (∃ id ring, rack.oscillators.find? id = some ring ∧ ring.oscillator.control = key) ∨
      ∃ id stage, rack.gains.find? id = some stage ∧ stage.key = key := by
  simp only [knobs, List.mem_append, List.mem_map, Roster.mem_values]
  constructor
  · rintro (⟨ring, ⟨id, found⟩, same⟩ | ⟨stage, ⟨id, found⟩, same⟩)
    · exact .inl ⟨id, ring, found, same⟩
    · exact .inr ⟨id, stage, found, same⟩
  · rintro (⟨id, ring, found, same⟩ | ⟨id, stage, found, same⟩)
    · exact .inl ⟨ring, ⟨id, found⟩, same⟩
    · exact .inr ⟨stage, ⟨id, found⟩, same⟩

theorem mem_knobs_sameParts {rack other : Rack} (same : rack.SameParts other) {key : NodeKey}
    (mem : key ∈ other.knobs) : key ∈ rack.knobs := by
  rcases mem_knobs.mp mem with ⟨id, ring, found, rfl⟩ | ⟨id, stage, found, rfl⟩
  · obtain ⟨old, found_old, alike⟩ := same.ring found
    have control : old.oscillator.control = ring.oscillator.control :=
      congrArg (·.oscillator.control) alike
    exact control ▸ control_mem_knobs found_old
  · rw [same.rest] at found
    exact stage_mem_knobs found

/-- A cable that is plugged in leaves all other nodes alone. -/
theorem node?_plug (rack : Rack) (graph : Graph τ) (cable : Cable) {key : NodeKey}
    (apart : key ∉ rack.knobs) : (rack.plug graph cable).2.node? key = graph.node? key := by
  have turned {stage : NodeKey} (mem : stage ∈ rack.knobs) (knob : Knob) (value : Float32) :
      (graph.setValue stage knob value).1.node? key = graph.node? key := by
    rw [Graph.node?_setValue, if_neg fun same : key = stage => apart (same ▸ mem)]
  have tuned (id : String) {f : Oscillator → Graph τ → Oscillator × Graph τ} {level : Float32}
      (acts : ∀ oscillator graph, (f oscillator graph).2 =
        (graph.setValue oscillator.control .offset level).1) :
      (rack.modifyOscillator graph id f).2.node? key = graph.node? key := by
    unfold modifyOscillator
    cases found : rack.oscillators.find? id with
    | none => rfl
    | some ring =>
      simp only [RingOscillator.withOscillator, acts]
      exact turned (control_mem_knobs found) .offset level
  unfold plug
  split
  · rename_i feeding fed from_part to_part
    split
    · exact Graph.node?_connect ..
    · exact tuned _ fun _ _ => rfl
    · exact tuned _ fun _ _ => rfl
    · rename_i stage factor effect
      refine turned ?_ .gain factor
      rw [Plug.end_of_turn effect] at to_part
      rcases part?_cases to_part with ⟨_, _, same⟩ | ⟨held, found, same⟩ | ⟨_, same⟩ | same |
        ⟨_, _, same⟩ <;> cases same
      exact stage_mem_knobs found
    · rfl
  · rfl

end Rack

namespace Racks

variable [Fourier] {racks : Racks} {name : String} {rack rack' : Rack} {graph after : Graph τ}

/-- The rack knows its parts by the sites that they stand at. -/
theorem Sound.legend (sound : (racks.set name rack).Sound graph) :
    Legend rack.site? ((racks.set name rack).Stands name) ∧
      ∀ id, rack.part? id =
        (rack.site? id).map (Endpoint.map ((racks.set name rack).keyAt name)) := by
  have sinks := sound.sinks_self
  constructor
  · refine ⟨trivial, fun id part here => ?_⟩
    unfold Rack.site? at here
    split at here
    · rename_i held
      cases here
      obtain ⟨ring, found⟩ := Option.isSome_iff_exists.mp held
      have stands : (racks.set name rack).Stands name (.output id) :=
        ⟨ring, ring?_set_self.trans found⟩
      exact .inl ⟨stands, stands, rfl⟩
    · split at here
      · rename_i held
        cases here
        obtain ⟨stage, found⟩ := Option.isSome_iff_exists.mp held
        exact .inr (.inl ⟨⟨stage, stage?_set_self.trans found⟩, rfl⟩)
      · split at here
        · cases here
          exact .inr (.inr (.inl ⟨_, rfl⟩))
        · split at here
          · cases here
            exact .inr (.inr (.inr (.inl rfl)))
          · split at here <;> cases here
            exact .inr (.inr (.inr (.inr rfl)))
  · exact fun id => Rack.part?_eq_map_site?
      (fun ring found => ⟨keyAt_output (ring?_set_self.trans found),
        keyAt_control (ring?_set_self.trans found)⟩)
      (fun stage found => keyAt_stage (stage?_set_self.trans found))
      (fun key found => (sinks id key found).symm)

/-- What patching a rack leaves. -/
structure Patched (racks : Racks) (name : String) (rack : Rack) (graph : Graph τ)
    (cables : List Cable) (rack' : Rack) (after : Graph τ) : Prop where
  sound : (racks.set name rack').Sound after
  parts : rack.SameParts rack'
  clock : after.clock = graph.clock
  spares : racks.Spares name graph after
  connections : after.connections = graph.connections.filter rack.spares ++
    (rack.board cables).wires.map ((racks.set name rack).lift name)
  settled : (racks.set name rack').Settled name after ((racks.set name rack).Stands name)
    (rack.board cables)
  kept : ∀ key, key ∉ rack.knobs → after.node? key = graph.node? key

/-- To plug in cables leaves all nodes but the knobs. -/
theorem Sound.node?_plugAll {bare : Rack} {middle : Graph τ}
    (bare_sound : (racks.set name bare).Sound middle) (cables : List Cable)
    (bare_same : rack.SameParts bare) {key : NodeKey} (apart : key ∉ rack.knobs) :
    (cables.foldl (fun (rack, graph) cable => rack.plug graph cable) (bare, middle)).2.node? key =
      middle.node? key := by
  induction cables generalizing bare middle with
  | nil => rfl
  | cons cable rest ih =>
    obtain ⟨next, last, first, next_sound, -, -, next_same⟩ := bare_sound.plug cable
    have kept := bare.node?_plug middle cable fun mem =>
      apart (Rack.mem_knobs_sameParts bare_same mem)
    simp only [List.foldl_cons, first] at kept ⊢
    exact (ih next_sound (bare_same.trans next_same)).trans kept

/-- To patch a rack leaves what is not its own and adds the wires of its board. -/
theorem Sound.patched (sound : (racks.set name rack).Sound graph) (cables : List Cable) :
    ∃ rack' after, rack.patch graph cables = (rack', after) ∧
      Patched racks name rack graph cables rack' after := by
  obtain ⟨rack', after, patch, sound', spares, clock, same⟩ := sound.patch cables
  obtain ⟨legend, parts⟩ := sound.legend
  obtain ⟨connections, settled⟩ := sound.patch_board legend rack.factorOf cables
    (fun _ _ id _ => parts id)
    (fun id here => by
      obtain ⟨ring, found⟩ := or_self_iff.mp here
      rw [ring?_set_self] at found
      exact Roster.contains_of_find? found)
    (fun id here => by
      obtain ⟨stage, found⟩ := here
      rw [stage?_set_self] at found
      exact ⟨stage, found, by simp [Rack.factorOf, found]⟩) patch
  refine ⟨rack', after, patch, sound', same, clock, spares, connections, settled, ?_⟩
  intro key apart
  obtain ⟨bare, middle, unplug, bare_sound, -, unplugged, same_rest, fixed⟩ := sound.unplug
  have bare_same : rack.SameParts bare := by
    refine ⟨same_rest, fun id => ?_⟩
    rw [fixed, Option.map_map]
    rfl
  rw [Rack.patch, unplug] at patch
  have kept := bare_sound.node?_plugAll cables bare_same apart
  rw [patch] at kept
  refine kept.trans (unplugged.untouched key ?_ ?_)
  · exact fun mem => apart (List.mem_append_left _ mem)
  · exact fun mem => apart (List.mem_append_right _ mem)

/-- What the board adds belongs to the instrument. -/
theorem Patched.owns (patched : Patched racks name rack graph cables rack' after)
    (sound : (racks.set name rack).Sound graph) {c : Connection}
    (mem : c ∈ (rack.board cables).wires.map ((racks.set name rack).lift name)) :
    (racks.set name rack').Owns name c.source := by
  obtain ⟨wire, listed, rfl⟩ := List.mem_map.mp mem
  have within := sound.legend.1.within_of_mem_plugAll rack.factorOf cables wire listed
  have keys : (racks.set name rack').keyAt name = (racks.set name rack).keyAt name :=
    keyAt_sameParts patched.parts
  rw [← lift_congr keys]
  exact (patched.settled.owns_lift within).1

end Racks

end Patchbay
