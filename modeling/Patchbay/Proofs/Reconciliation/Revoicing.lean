import Patchbay.Proofs.Reconciliation.Replugging

/-!
# Voices anew

A pass leaves racks that differ from those before in their voices and in the waves that are kept
alone. So cables and notes mean the same before and after it, and if its voices are given up, the
same pass can be made again with the same outcome.
-/
namespace Patchbay

variable {τ : Type}

/-! ### Racks with other voices -/

/-- The racks differ in their voices and in the waves that they keep alone. -/
structure Rack.Revoiced (rack other : Rack) : Prop where
  rings : ∀ id, (other.oscillators.find? id).map RingOscillator.bare =
    (rack.oscillators.find? id).map RingOscillator.bare
  fittings : other.fittings = rack.fittings

namespace Rack.Revoiced

variable {rack other : Rack} (same : rack.Revoiced other)

include same

theorem symm : other.Revoiced rack :=
  ⟨fun id => (same.rings id).symm, same.fittings.symm⟩

theorem ring {id : String} {ring : RingOscillator} (found : rack.oscillators.find? id = some ring) :
    ∃ ring', other.oscillators.find? id = some ring' ∧ ring'.bare = ring.bare := by
  have both := same.rings id
  rw [found, Option.map_some] at both
  exact Option.map_eq_some_iff.mp both

theorem sameFrame : rack.SameFrame other where
  ports := by
    intro id
    have both := congrArg (Option.map fun ring : RingOscillator =>
      (ring.oscillator.output, ring.oscillator.control)) (same.rings id)
    rw [Option.map_map, Option.map_map] at both
    exact both
  fittings := same.fittings

theorem furnished {instrument : Instrument} (full : rack.Furnished instrument) :
    other.Furnished instrument where
  oscillators := by
    intro id partials described
    obtain ⟨ring, found, timbre, signals, weights⟩ := full.oscillators id partials described
    obtain ⟨ring', found', bare⟩ := same.ring found
    exact ⟨ring', found', (congrArg (·.oscillator.partials) bare).trans timbre,
      (congrArg (·.signals) bare).trans signals, (congrArg (·.weights) bare).trans weights⟩
  gains := same.sameFrame.gains ▸ full.gains
  numbers := by
    have numbers : other.numbers = rack.numbers := congrArg (·.numbers) same.fittings
    exact numbers ▸ full.numbers
  source := by
    have sources : other.sources = rack.sources := congrArg (·.sources) same.fittings
    exact sources ▸ full.source
  sink := by
    have sinks : other.sinks = rack.sinks := congrArg (·.sinks) same.fittings
    exact sinks ▸ full.sink
  active := by
    have active : other.active = rack.active := congrArg (·.active) same.fittings
    exact active ▸ full.active

theorem equipped {graph after : Graph τ} {instrument : Instrument} {cables : List Cable}
    (equipped : rack.Equipped graph instrument cables)
    (kept : ∀ key ∈ rack.knobs, after.node? key = graph.node? key) :
    other.Equipped after instrument cables where
  full := same.furnished equipped.full
  rings := by
    intro id ring' found'
    obtain ⟨ring, found, bare⟩ := same.symm.ring found'
    have control : ring'.oscillator.control = ring.oscillator.control :=
      (congrArg (·.oscillator.control) bare).symm
    have follows : ring'.oscillator.followsNote = ring.oscillator.followsNote :=
      (congrArg (·.oscillator.followsNote) bare).symm
    rw [control, follows, kept _ (Rack.control_mem_knobs found), same.sameFrame.board]
    exact equipped.rings id ring found
  stages := by
    intro id stage found
    rw [same.sameFrame.gains] at found
    rw [kept _ (Rack.stage_mem_knobs found), same.sameFrame.board]
    exact equipped.stages id stage found

/-- Notes make the same calls. -/
theorem calls [TimeAxis τ] (name : String) (now position : τ) (ids : List String) (note : Note τ) :
    other.calls name now position ids note = rack.calls name now position ids note := by
  refine List.flatMap_congr fun id _ => ?_
  cases found : rack.oscillators.find? id with
  | none =>
    have both := same.rings id
    rw [found, Option.map_none, Option.map_eq_none_iff] at both
    rw [both]
  | some ring =>
    obtain ⟨ring', found', bare⟩ := same.ring found
    rw [found', Option.map_some, Option.map_some, RingOscillator.sheet_of_bare bare]

end Rack.Revoiced

namespace Racks

/-- All racks differ in their voices and in the waves that they keep alone. -/
def Revoiced (racks racks' : Racks) : Prop :=
  ∀ name, Option.Rel Rack.Revoiced (racks name) (racks' name)

variable {racks racks' next quiet : Racks} {graph after start last quieted : Graph τ}
  {names names' : List String} {calls : List (Call τ)} {name : String}

namespace Revoiced

variable (same : racks.Revoiced racks')

include same

theorem either (name : String) : racks name = none ∧ racks' name = none ∨
    ∃ rack rack', racks name = some rack ∧ racks' name = some rack' ∧ rack.Revoiced rack' := by
  have both := same name
  cases found : racks name <;> cases found' : racks' name <;> rw [found, found'] at both <;>
    cases both
  case none.none => exact .inl ⟨rfl, rfl⟩
  case some.some rack rack' here => exact .inr ⟨rack, rack', rfl, rfl, here⟩

theorem rack {rack : Rack} (found : racks name = some rack) :
    ∃ rack', racks' name = some rack' ∧ rack.Revoiced rack' := by
  obtain ⟨none_found, -⟩ | ⟨known, rack', found_known, found', here⟩ := same.either name
  · rw [found] at none_found
    cases none_found
  · rw [found] at found_known
    cases found_known
    exact ⟨rack', found', here⟩

/-- The same connections are pulled out with the cables of instruments. -/
theorem spared (names : List String) : racks'.spared names = racks.spared names := by
  funext c
  refine congrArg (names.all ·) (funext fun name => ?_)
  obtain ⟨found, found'⟩ | ⟨rack, rack', found, found', here⟩ := same.either name
  · rw [found, found']
  · rw [found, found', Option.all_some, Option.all_some, here.sameFrame.spares]

/-- The same connections are plugged in. -/
theorem plugged (cables : String → List Cable) (names : List String) :
    racks'.plugged cables names = racks.plugged cables names := by
  refine List.flatMap_congr fun name _ => ?_
  obtain ⟨found, found'⟩ | ⟨rack, rack', found, found', here⟩ := same.either name
  · rw [found, found']
    rfl
  · rw [found, found', Option.elim_some, Option.elim_some, here.sameFrame.board,
      lift_congr (keyAt_sameFrame found found' here.sameFrame)]

theorem callsOf [TimeAxis τ] (now position : τ) (name : String) (notes : List (Note τ)) :
    racks'.callsOf now position name notes = racks.callsOf now position name notes := by
  unfold Racks.callsOf
  obtain ⟨found, found'⟩ | ⟨rack, rack', found, found', here⟩ := same.either name
  · rw [found, found']
  · have active : rack'.active = rack.active := congrArg (·.active) here.fittings
    rw [found, found', Option.elim_some, Option.elim_some, active]
    exact List.flatMap_congr fun note _ => here.calls ..

end Revoiced

/-! ### Passes -/

variable [Fourier]

theorem Turned.revoiced (turned : Turned racks graph names calls next after) :
    racks.Revoiced next := by
  intro name
  have fittings := turned.fittings name
  cases found : racks name <;> cases found' : next name <;>
    simp only [found, found', Option.map_none, Option.map_some, reduceCtorEq,
      Option.some.injEq] at fittings
  · exact .none
  · rename_i rack rack'
    refine .some ⟨fun id => ?_, fittings⟩
    cases here : rack.oscillators.find? id with
    | none =>
      have there := turned.absent name id (by rw [ring?, found]; exact here)
      rw [ring?, found'] at there
      rw [show rack'.oscillators.find? id = none from there]
    | some ring =>
      obtain ⟨ring', there, bare, -⟩ := turned.rings name id ring (by rw [ring?, found]; exact here)
      rw [ring?, found'] at there
      rw [show rack'.oscillators.find? id = some ring' from there, Option.map_some,
        Option.map_some, bare]

/-- The rings after a pass are those from before it. -/
theorem Turned.ring_back (turned : Turned racks graph names calls next after) {id : String}
    {ring' : RingOscillator} (found' : next.ring? name id = some ring') :
    ∃ ring, racks.ring? name id = some ring ∧
      ring'.oscillator.nodes = (if name ∈ names then [] else ring.oscillator.nodes) ++
        (Call.voicesOf name id (Call.placed graph.nodes.size calls)).flatMap Call.nodesOf ∧
      ring'.oscillator.generators = (if name ∈ names then [] else ring.oscillator.generators) ++
        (Call.voicesOf name id (Call.placed graph.nodes.size calls)).flatMap Call.generatorsOf := by
  cases found : racks.ring? name id with
  | none =>
    rw [turned.absent name id found] at found'
    cases found'
  | some ring =>
    obtain ⟨same, found_same, -, nodes, generators⟩ := turned.rings name id ring found
    rw [found'] at found_same
    cases found_same
    exact ⟨ring, rfl, nodes, generators⟩

/-- A pass leaves frequency controls and gains. -/
theorem Turned.node?_knob (turned : Turned racks graph names calls next after)
    (sound : racks.Sound graph) {rack : Rack} (found : racks name = some rack) {key : NodeKey}
    (knob : key ∈ rack.knobs) : after.node? key = graph.node? key := by
  rcases Rack.mem_knobs.mp knob with ⟨id, ring, here, rfl⟩ | ⟨id, stage, here, rfl⟩
  · have found_ring : racks.ring? name id = some ring := by rw [ring?, found]; exact here
    have stands : racks.Stands name (.control id) := ⟨ring, found_ring⟩
    exact keyAt_control found_ring ▸ turned.node?_keyAt sound stands
  · have found_stage : racks.stage? name id = some stage := by rw [stage?, found]; exact here
    have stands : racks.Stands name (.stage id) := ⟨stage, found_stage⟩
    exact keyAt_stage found_stage ▸ turned.node?_keyAt sound stands

/-- Instruments stay equipped through a pass. -/
theorem Turned.equips (turned : Turned racks graph names calls next after)
    (sound : racks.Sound graph) {project : Project τ} (equips : racks.Equips graph project) :
    next.Equips after project := by
  intro name instrument described
  obtain ⟨rack, found, equipped⟩ := equips name instrument described
  obtain ⟨rack', found', same⟩ := turned.revoiced.rack found
  exact ⟨rack', found', same.equipped equipped fun key => turned.node?_knob sound found⟩

/-- It does not matter in which order instruments are named. -/
theorem Turned.of_names (turned : Turned racks graph names calls next after)
    (same : ∀ name, name ∈ names' ↔ name ∈ names) :
    Turned racks graph names' calls next after := by
  have voiced (key : NodeKey) : key ∈ racks.voices names' ↔ key ∈ racks.voices names := by
    simp only [mem_voices, same]
  constructor
  case sound => exact turned.sound
  case clock => exact turned.clock
  case size => exact turned.size
  case connections => simpa only [voiced] using turned.connections
  case old => simpa only [voiced] using turned.old
  case new => exact turned.new
  case rings => simpa only [same] using turned.rings
  case absent => exact turned.absent
  case stages => exact turned.stages
  case fittings => exact turned.fittings
  case memories => exact turned.memories
  case scored => exact turned.scored
  case others => simpa only [same] using turned.others
  case named => simpa only [same] using turned.named

section Freed

variable (freed : Turned racks graph names ([] : List (Call τ)) quiet quieted)

include freed

/-- Where voices are given up, nothing else goes. -/
theorem Turned.freed_nodes (key : NodeKey) :
    quieted.node? key = if key ∈ racks.voices names then none else graph.node? key := by
  by_cases lt : key < graph.nodes.size
  · exact freed.old key lt
  · have le := Nat.not_lt.mp lt
    have size : quieted.nodes.size = graph.nodes.size := freed.size
    rw [Graph.node?_of_size_le quieted (size ▸ le), Graph.node?_of_size_le graph le, ite_self]

theorem Turned.freed_connections : quieted.connections = graph.connections.filter
    (fun c => c.source ∉ racks.voices names ∧ c.target ∉ racks.voices names) := by
  simpa [Call.placed] using freed.connections

end Freed

section Undone

variable (turned : Turned racks graph names calls next after) (sound : racks.Sound graph)

include turned

/-- All voices that there are after a pass are new. -/
theorem Turned.le_of_voiced {key : NodeKey} (mem : key ∈ next.voices names) :
    graph.nodes.size ≤ key := by
  obtain ⟨name, listed, id, ring', found', counted⟩ := mem_voices.mp mem
  obtain ⟨ring, -, nodes, -⟩ := turned.ring_back found'
  rw [nodes, if_pos listed, List.nil_append] at counted
  obtain ⟨p, asked, here⟩ := List.mem_flatMap.mp counted
  exact Nat.le_trans (Call.bounds_of_mem_placed (List.mem_filter.mp asked).1).1
    (mem_voiceNodes.mp here).1

include sound

/-- All nodes that come with a pass are voices. -/
theorem Turned.voiced_of_le {key : NodeKey} (le : graph.nodes.size ≤ key)
    (alive : after.contains key) : key ∈ next.voices names := by
  rcases (turned.sound.ledger.lives key).mp alive with destined | ⟨holder, held⟩
  · exact absurd sound.ledger.destination_lt (Nat.not_lt.mpr (destined ▸ le))
  · obtain ⟨id, ring, found, p, mem, named, rfl, here⟩ :=
      turned.exists_call sound le ⟨holder, rfl, held⟩
    obtain ⟨ring', found', -, nodes, -⟩ := turned.rings _ _ ring found
    have listed := turned.named p.2 (Call.mem_of_mem_placed mem)
    rw [named] at listed
    refine mem_voices.mpr ⟨_, listed, _, ring', found', ?_⟩
    rw [nodes, if_pos listed, List.nil_append]
    exact List.mem_flatMap.mpr ⟨p, List.mem_filter.mpr ⟨mem, by simp [Call.isFor, named]⟩, here⟩

/-- If the voices of a pass are given up, the nodes are left that were there without old voices. -/
theorem Turned.undone_nodes (key : NodeKey) :
    (if key ∈ next.voices names then none else after.node? key) =
      if key ∈ racks.voices names then none else graph.node? key := by
  by_cases lt : key < graph.nodes.size
  · rw [if_neg fun mem => Nat.not_le.mpr lt (turned.le_of_voiced mem), turned.old key lt]
  · have le := Nat.not_lt.mp lt
    rw [Graph.node?_of_size_le graph le, ite_self]
    split
    · rfl
    · rename_i silent
      by_contra alive
      exact silent (turned.voiced_of_le sound le (Option.isSome_iff_ne_none.mpr alive))

theorem Turned.undone_connections :
    after.connections.filter (fun c => c.source ∉ next.voices names ∧ c.target ∉ next.voices names) =
      graph.connections.filter
        (fun c => c.source ∉ racks.voices names ∧ c.target ∉ racks.voices names) := by
  have new : ((Call.placed graph.nodes.size calls).flatMap racks.wires).filter
      (fun c => c.source ∉ next.voices names ∧ c.target ∉ next.voices names) = [] := by
    refine List.filter_eq_nil_iff.mpr fun c mem apart => ?_
    obtain ⟨source, target⟩ := of_decide_eq_true apart
    have made : c ∈ after.connections := turned.connections ▸ List.mem_append_right _ mem
    obtain ⟨⟨_, source_lives, _⟩, ⟨_, target_lives, _⟩, _⟩ :=
      Graph.admits_iff.mp (turned.sound.wellFormed.admitted c made)
    obtain ⟨p, placed, wired⟩ := List.mem_flatMap.mp mem
    have le {key : NodeKey} (here : key ∈ voiceNodes p.1 p.2.sheet.branches.length) :
        graph.nodes.size ≤ key :=
      Nat.le_trans (Call.bounds_of_mem_placed placed).1 (mem_voiceNodes.mp here).1
    rcases (ends_of_mem_voiceWires wired).2 with here | ⟨-, here⟩
    · exact target (turned.voiced_of_le sound (le here) (by simp [Graph.contains, target_lives]))
    · exact source (turned.voiced_of_le sound (le here) (by simp [Graph.contains, source_lives]))
  rw [turned.connections, List.filter_append, new, List.append_nil]
  refine List.filter_eq_self.mpr fun c mem => ?_
  obtain ⟨⟨_, source, _⟩, ⟨_, target, _⟩, _⟩ :=
    Graph.admits_iff.mp (sound.wellFormed.admitted c (List.mem_filter.mp mem).1)
  exact decide_eq_true ⟨fun voiced => Nat.not_le.mpr (Graph.lt_size_of_node? source)
    (turned.le_of_voiced voiced), fun voiced => Nat.not_le.mpr (Graph.lt_size_of_node? target)
    (turned.le_of_voiced voiced)⟩

end Undone

/-- Some instruments have no voices, while their oscillators may have asked for the waves of calls. -/
structure Hushed (racks : Racks) (rate : Float32) (names : List String) (calls : List (Call τ))
    (quiet : Racks) : Prop where
  rings : ∀ name id ring, racks.ring? name id = some ring →
    ∃ ring', quiet.ring? name id = some ring' ∧ ring'.bare = ring.bare ∧
      ring'.oscillator.nodes = (if name ∈ names then [] else ring.oscillator.nodes) ∧
      ring'.oscillator.generators = (if name ∈ names then [] else ring.oscillator.generators) ∧
      ∃ asked : Bool, (asked → calls.any (·.isFor name id)) ∧
        ring'.memory = if asked then ring.recalled rate else ring.memory
  absent : ∀ name id, racks.ring? name id = none → quiet.ring? name id = none
  stages : ∀ name id, quiet.stage? name id = racks.stage? name id
  fittings : ∀ name, (quiet name).map Rack.fittings = (racks name).map Rack.fittings
  others : ∀ name, name ∉ names → quiet name = racks name

/-- Voices are given up before the calls. -/
theorem Turned.hushed (freed : Turned racks graph names ([] : List (Call τ)) quiet quieted)
    (rate : Float32) (calls : List (Call τ)) : Hushed racks rate names calls quiet where
  rings := by
    intro name id ring found
    obtain ⟨ring', found', bare, nodes, generators⟩ := freed.rings name id ring found
    refine ⟨ring', found', bare, ?_, ?_, false, by simp, ?_⟩
    · simpa [Call.placed, Call.voicesOf] using nodes
    · simpa [Call.placed, Call.voicesOf] using generators
    · simpa using freed.memories name id ring ring' found found'
  absent := freed.absent
  stages := freed.stages
  fittings := freed.fittings
  others := freed.others

/-- Voices are given up after the calls. -/
theorem Turned.hushed_after (turned : Turned racks graph names calls next after)
    (freed : Turned next start names ([] : List (Call τ)) quiet quieted) :
    Hushed racks graph.rate names calls quiet where
  rings := by
    intro name id ring found
    obtain ⟨middle, found_middle, bare, nodes, generators⟩ := turned.rings name id ring found
    obtain ⟨ring', found', bare', nodes', generators', -⟩ :=
      (freed.hushed graph.rate calls).rings name id middle found_middle
    refine ⟨ring', found', bare'.trans bare, ?_, ?_, calls.any (·.isFor name id),
      fun asked => asked, ?_⟩
    · rw [nodes', nodes]
      by_cases listed : name ∈ names
      · rw [if_pos listed, if_pos listed]
      · rw [if_neg listed, if_neg listed, turned.voicesOf_eq_nil id listed, List.flatMap_nil,
          List.append_nil]
    · rw [generators', generators]
      by_cases listed : name ∈ names
      · rw [if_pos listed, if_pos listed]
      · rw [if_neg listed, if_neg listed, turned.voicesOf_eq_nil id listed, List.flatMap_nil,
          List.append_nil]
    · have kept : ring'.memory = middle.memory := by
        simpa using freed.memories name id middle ring' found_middle found'
      rw [kept, turned.memories name id ring middle found found_middle]
  absent := fun name id none_found => freed.absent _ _ (turned.absent _ _ none_found)
  stages := fun name id => (freed.stages name id).trans (turned.stages name id)
  fittings := fun name => (freed.fittings name).trans (turned.fittings name)
  others := fun name outside => (freed.others name outside).trans (turned.others name outside)

section Hushed

variable {rate : Float32} (hushed : Hushed racks rate names calls quiet)

include hushed

theorem Hushed.ring_back {id : String} {ring' : RingOscillator}
    (found' : quiet.ring? name id = some ring') : ∃ ring, racks.ring? name id = some ring ∧
      ring'.bare = ring.bare ∧
      ring'.oscillator.nodes = (if name ∈ names then [] else ring.oscillator.nodes) ∧
      ring'.oscillator.generators = (if name ∈ names then [] else ring.oscillator.generators) ∧
      ∃ asked : Bool, (asked → calls.any (·.isFor name id)) ∧
        ring'.memory = if asked then ring.recalled rate else ring.memory := by
  cases found : racks.ring? name id with
  | none =>
    rw [hushed.absent name id found] at found'
    cases found'
  | some ring =>
    obtain ⟨same, found_same, rest⟩ := hushed.rings name id ring found
    rw [found'] at found_same
    cases found_same
    exact ⟨ring, rfl, rest⟩

theorem Hushed.voices_eq_nil : quiet.voices names = [] := by
  rw [List.eq_nil_iff_forall_not_mem]
  intro key mem
  obtain ⟨name, listed, id, ring', found', counted⟩ := mem_voices.mp mem
  obtain ⟨ring, -, -, given_up, -⟩ := hushed.ring_back found'
  rw [given_up, if_pos listed] at counted
  cases counted

theorem Hushed.wires : (quiet.wires : Nat × Call τ → _) = racks.wires := by
  refine wires_congr (fun name id ring found => ?_) hushed.absent
  obtain ⟨ring', found', bare, -⟩ := hushed.rings name id ring found
  exact ⟨ring', found', bare⟩

end Hushed

/-- The same pass is made where there are no voices to give up. -/
theorem Turned.replay (turned : Turned racks graph names calls next after)
    (hushed : Hushed racks graph.rate names calls quiet) (rate : start.rate = graph.rate)
    (size : start.nodes.size = graph.nodes.size)
    (nodes : ∀ key, start.node? key = if key ∈ racks.voices names then none else graph.node? key)
    (connections : start.connections = graph.connections.filter
      (fun c => c.source ∉ racks.voices names ∧ c.target ∉ racks.voices names))
    (sound : next.Sound last) (clock : last.clock = start.clock)
    (last_nodes : last.nodes = after.nodes) (last_connections : last.connections = after.connections) :
    Turned quiet start names calls next last := by
  have node? (key : NodeKey) : last.node? key = after.node? key := by
    rw [Graph.node?, last_nodes, Graph.node?]
  have silent := hushed.voices_eq_nil
  constructor
  case sound => exact sound
  case clock => exact clock
  case size => rw [last_nodes, turned.size, size]
  case connections => simp [last_connections, turned.connections, connections, silent, size,
    hushed.wires]
  case old =>
    intro key lt
    rw [node?, turned.old key (size ▸ lt), nodes, silent, if_neg List.not_mem_nil]
  case new =>
    rw [size, rate]
    intro p mem i component listed
    simpa only [node?] using turned.new p mem i component listed
  case rings =>
    intro name id ring₀ found₀
    obtain ⟨ring, found, bare, given_up, given_up', -⟩ := hushed.ring_back found₀
    obtain ⟨ring', found', bare', counted, generators⟩ := turned.rings name id ring found
    refine ⟨ring', found', bare'.trans bare.symm, ?_, ?_⟩
    · rw [counted, size, given_up]
      by_cases listed : name ∈ names <;> simp [listed]
    · rw [generators, size, given_up']
      by_cases listed : name ∈ names <;> simp [listed]
  case absent =>
    intro name id none_found
    cases found : racks.ring? name id with
    | none => exact turned.absent name id found
    | some ring =>
      obtain ⟨ring', found', -⟩ := hushed.rings name id ring found
      rw [none_found] at found'
      cases found'
  case stages => exact fun name id => (turned.stages name id).trans (hushed.stages name id).symm
  case fittings => exact fun name => (turned.fittings name).trans (hushed.fittings name).symm
  case memories =>
    intro name id ring₀ ring' found₀ found'
    obtain ⟨ring, found, bare, -, -, asked, only, memory⟩ := hushed.ring_back found₀
    rw [rate, RingOscillator.memory_twice bare memory, turned.memories name id ring ring' found found']
    cases asked
    · rw [Bool.false_or]
    · rw [Bool.true_or, only rfl]
  case scored =>
    rw [size, rate]
    intro p mem ring₀ found₀ i lt
    obtain ⟨ring, found, bare, -, -, asked, -, memory⟩ := hushed.ring_back found₀
    rw [node?, turned.scored p mem ring found i lt, RingOscillator.score_twice bare memory]
  case others =>
    exact fun name outside => (turned.others name outside).trans (hushed.others name outside).symm
  case named => exact turned.named

end Racks

end Patchbay
