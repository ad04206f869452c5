import Patchbay.Proofs.Reconciliation.Mirroring

/-!
# Bands

A band is some of the instruments. Two graphs are alike for a band if its instruments differ in
nothing but the keys of their nodes, whatever else there may be in the one graph or the other. What
is done to an instrument outside of the band is not seen, and what is done to an instrument of the
band in both graphs keeps them alike.
-/
namespace Patchbay

variable {τ : Type}

/-- A rack but for its oscillators and its gains. -/
def Rack.labels (rack : Rack) : Rack :=
  { rack.fittings with gains := .empty }

/-- A gain stage under another key. -/
def GainStage.map (f : NodeKey → NodeKey) (stage : GainStage) : GainStage :=
  { stage with key := f stage.key }

/-- Rings are the same under other keys, with the waves that they keep. -/
structure RingOscillator.Twin (f : NodeKey → NodeKey) (ring ring' : RingOscillator) : Prop
    extends ring.Alike f ring' where
  memory : ring'.memory = ring.memory

/-- A renaming that does the same to the nodes of a ring makes the same ring of it. -/
theorem RingOscillator.Twin.congr {f g : NodeKey → NodeKey} {ring ring' : RingOscillator}
    (alike : ring.Twin f ring') (counted : ring.oscillator.generators ⊆ ring.oscillator.nodes)
    (same : ∀ key ∈ ring.keys, g key = f key) : ring.Twin g ring' where
  memory := alike.memory
  partials := alike.partials
  follows := alike.follows
  signals := alike.signals
  weights := alike.weights
  output := by rw [alike.output, same _ ring.output_mem_keys]
  control := by rw [alike.control, same _ ring.control_mem_keys]
  nodes := by
    rw [alike.nodes]
    exact List.map_congr_left fun key mem => (same key (mem_keys_of_counted mem)).symm
  generators := by
    rw [alike.generators]
    exact List.map_congr_left fun key mem => (same key (mem_keys_of_counted (counted mem))).symm

theorem RingOscillator.Twin.keys {f : NodeKey → NodeKey} {ring ring' : RingOscillator}
    (alike : ring.Twin f ring') : ring'.keys = ring.keys.map f := by
  simp only [RingOscillator.keys, alike.output, alike.control, alike.nodes, List.map_cons]

namespace Racks

/-- An instrument of the band holds a node. -/
def Holds (racks : Racks) (band : String → Prop) (key : NodeKey) : Prop :=
  ∃ name, band name ∧ racks.Owns name key

open Classical in
/-- Those among some connections that start from a node of a band. -/
noncomputable def fromBand (racks : Racks) (band : String → Prop) (wires : List Connection) :
    List Connection :=
  wires.filter fun c => racks.Holds band c.source

/-- The connections that start from a node of a band, in order. -/
noncomputable def wiring (racks : Racks) (band : String → Prop) (graph : Graph τ) :
    List Connection :=
  racks.fromBand band graph.connections

section Wiring

variable {racks racks' : Racks} {band : String → Prop} {graph after : Graph τ}

theorem mem_wiring {c : Connection} :
    c ∈ racks.wiring band graph ↔ c ∈ graph.connections ∧ racks.Holds band c.source := by
  simp [wiring, fromBand]

theorem fromBand_eq_self {wires : List Connection}
    (all : ∀ c ∈ wires, racks.Holds band c.source) : racks.fromBand band wires = wires :=
  List.filter_eq_self.mpr fun c mem => by simpa using all c mem

theorem fromBand_eq_nil {wires : List Connection}
    (none_of : ∀ c ∈ wires, ¬ racks.Holds band c.source) : racks.fromBand band wires = [] :=
  List.filter_eq_nil_iff.mpr fun c mem => by simpa using none_of c mem

theorem Holds.of_owns {name : String} (member : band name) {key : NodeKey}
    (owned : racks.Owns name key) : racks.Holds band key :=
  ⟨name, member, owned⟩

variable [Fourier]

/-- Where a connection of a band ends: in the band again or at the destination. -/
theorem Sound.target_of_mem_wiring (sound : racks.Sound graph) {c : Connection}
    (mem : c ∈ racks.wiring band graph) :
    c.target = Graph.destination ∨ racks.Holds band c.target := by
  obtain ⟨made, name, member, owned⟩ := mem_wiring.mp mem
  obtain ⟨place, source, target⟩ := sound.wired c made
  obtain rfl := sound.owner_unique owned source
  exact target.imp_right (.of_owns member)

/-- Some connections go and some are made, while nodes that live on stay with their instrument. -/
theorem Sound.wiring_eq (sound : racks.Sound graph) (sound' : racks'.Sound after)
    (stays : ∀ name key, racks.Owns name key → after.contains key → racks'.Owns name key)
    {keep : Connection → Bool} {wires : List Connection}
    (connections : after.connections = graph.connections.filter keep ++ wires) :
    racks'.wiring band after =
      (racks.wiring band graph).filter keep ++ racks'.fromBand band wires := by
  classical
  have same (c : Connection) (mem : c ∈ graph.connections.filter keep) :
      racks'.Holds band c.source ↔ racks.Holds band c.source := by
    have made : c ∈ graph.connections := (List.mem_filter.mp mem).1
    have remains : c ∈ after.connections := connections ▸ List.mem_append_left _ mem
    obtain ⟨place, source, -⟩ := sound.wired c made
    obtain ⟨place', source', -⟩ := sound'.wired c remains
    have alive := sound'.contains_of_owns source'
    constructor
    · rintro ⟨name, member, owned⟩
      obtain rfl := sound'.owner_unique owned (stays place _ source alive)
      exact ⟨_, member, source⟩
    · rintro ⟨name, member, owned⟩
      exact ⟨name, member, stays name _ owned alive⟩
  unfold wiring fromBand
  rw [connections, List.filter_append, List.filter_filter, List.filter_filter]
  congr 1
  refine List.filter_congr fun c made => ?_
  by_cases kept : keep c = true
  · have both := same c (List.mem_filter.mpr ⟨made, kept⟩)
    simp [both, kept]
  · simp [kept]

/-- Where one rack is changed, what lives on stays with its instrument. -/
theorem Sound.stays_set {name : String} {rack rack' : Rack}
    (sound : (racks.set name rack).Sound graph) (sound' : (racks.set name rack').Sound after)
    (other : String) (key : NodeKey) (owned : (racks.set name rack).Owns other key)
    (alive : after.contains key) : (racks.set name rack').Owns other key := by
  by_cases here : other = name
  · subst here
    rcases (sound'.ledger.lives key).mp alive with destined | ⟨holder, held⟩
    · exact absurd destined (sound.owned_ne_destination owned)
    · have owned' : (racks.set other rack').Owns holder.instrument key := ⟨holder, rfl, held⟩
      by_cases same : holder.instrument = other
      · rwa [same] at owned'
      · have theirs := (owns_set_of_ne same rack key).mpr ((owns_set_of_ne same rack' key).mp owned')
        exact absurd (sound.owner_unique owned theirs).symm same
  · exact (owns_set_of_ne here rack' key).mpr ((owns_set_of_ne here rack key).mp owned)

end Wiring

/-- The instruments of a band are the same in two graphs, up to the keys of their nodes. -/
structure Alike [Fourier] (band : String → Prop) (f : NodeKey → NodeKey) (racks : Racks)
    (graph : Graph τ) (racks' : Racks) (graph' : Graph τ) : Prop where
  sound : racks.Sound graph
  sound' : racks'.Sound graph'
  clock : graph'.clock = graph.clock
  destination : f Graph.destination = Graph.destination
  rings : ∀ name, band name → ∀ id,
    Option.Rel (RingOscillator.Twin f) (racks.ring? name id) (racks'.ring? name id)
  stages : ∀ name, band name → ∀ id,
    racks'.stage? name id = (racks.stage? name id).map (GainStage.map f)
  labels : ∀ name, band name → (racks' name).map Rack.labels = (racks name).map Rack.labels
  nodes : ∀ key, racks.Holds band key →
    (graph'.node? (f key)).map Node.unnumbered = (graph.node? key).map Node.unnumbered
  wiring : racks'.wiring band graph' = (racks.wiring band graph).map (Connection.map f)

namespace Alike

variable [Fourier] {band : String → Prop} {f : NodeKey → NodeKey} {racks racks' : Racks}
  {graph graph' : Graph τ} {name : String}

theorem ring (alike : Alike band f racks graph racks' graph') (member : band name) {id : String}
    {ring : RingOscillator} (found : racks.ring? name id = some ring) :
    ∃ ring', racks'.ring? name id = some ring' ∧ ring.Twin f ring' := by
  have both := alike.rings name member id
  rw [found] at both
  cases both' : racks'.ring? name id <;> rw [both'] at both <;> cases both
  rename_i ring' same
  exact ⟨ring', rfl, same⟩

/-- Holders hold the same nodes under other keys. -/
theorem held (alike : Alike band f racks graph racks' graph') {holder : Holder}
    (member : band holder.instrument) : racks'.held holder = (racks.held holder).map f := by
  cases holder with
  | ring name id =>
    have both := alike.rings name member id
    simp only [Racks.held]
    cases found : racks.ring? name id <;> cases found' : racks'.ring? name id <;>
      rw [found, found'] at both <;> cases both
    · rfl
    · rename_i same
      exact same.keys
  | stage name id =>
    have both := alike.stages name member id
    simp only [Racks.held, both]
    cases racks.stage? name id <;> rfl

theorem owns (alike : Alike band f racks graph racks' graph') (member : band name) {key : NodeKey}
    (owned : racks.Owns name key) : racks'.Owns name (f key) := by
  obtain ⟨holder, rfl, mem⟩ := owned
  refine ⟨holder, rfl, ?_⟩
  rw [alike.held member]
  exact List.mem_map_of_mem mem

theorem holds (alike : Alike band f racks graph racks' graph') {key : NodeKey}
    (held : racks.Holds band key) : racks'.Holds band (f key) := by
  obtain ⟨name, member, owned⟩ := held
  exact ⟨name, member, alike.owns member owned⟩

/-- The nodes of the band in the one graph are those in the other. -/
theorem exists_of_owns (alike : Alike band f racks graph racks' graph') (member : band name)
    {key' : NodeKey} (owned : racks'.Owns name key') : ∃ key, racks.Owns name key ∧ f key = key' := by
  obtain ⟨holder, rfl, mem⟩ := owned
  rw [alike.held member] at mem
  obtain ⟨key, held, rfl⟩ := List.mem_map.mp mem
  exact ⟨key, ⟨holder, rfl, held⟩, rfl⟩

theorem injective (alike : Alike band f racks graph racks' graph') {key other : NodeKey}
    (held : racks.Holds band key) (held' : racks.Holds band other) (same : f key = f other) :
    key = other := by
  obtain ⟨name, member, holder, rfl, mem⟩ := held
  obtain ⟨name', member', holder', rfl, mem'⟩ := held'
  have image : f key ∈ racks'.held holder := by
    rw [alike.held member]
    exact List.mem_map_of_mem mem
  have image' : f key ∈ racks'.held holder' := by
    rw [alike.held member', same]
    exact List.mem_map_of_mem mem'
  obtain rfl := alike.sound'.ledger.apart _ _ _ image image'
  have once := alike.sound'.ledger.once holder
  rw [alike.held member] at once
  exact List.inj_on_of_nodup_map once mem mem' same

theorem rate (alike : Alike band f racks graph racks' graph') : graph'.rate = graph.rate :=
  congrArg Clock.rate alike.clock

section Congruence

/-! Another renaming that does the same to all that is there. -/

variable (alike : Alike band f racks graph racks' graph') {g : NodeKey → NodeKey}
  (agrees : ∀ key < graph.nodes.size, g key = f key)

include alike agrees

theorem rings_congr (member : band name) (id : String) :
    Option.Rel (RingOscillator.Twin g) (racks.ring? name id) (racks'.ring? name id) := by
  have both := alike.rings name member id
  cases found : racks.ring? name id <;> cases found' : racks'.ring? name id <;>
    rw [found, found'] at both <;> cases both
  · exact .none
  · rename_i same
    exact .some (same.congr (alike.sound.rings name id _ found).generators.subset
      fun key mem => agrees key (alike.sound.lt_size (owns_ring found mem)))

theorem stages_congr (member : band name) (id : String) :
    racks'.stage? name id = (racks.stage? name id).map (GainStage.map g) := by
  rw [alike.stages name member id]
  refine Option.map_congr fun stage found => ?_
  rw [GainStage.map, GainStage.map, agrees _ (alike.sound.lt_size (owns_stage found))]

theorem map_congr {c : Connection} (mem : c ∈ racks.wiring band graph) : c.map g = c.map f := by
  have same {key : NodeKey} (held : racks.Holds band key) : g key = f key := by
    obtain ⟨name, -, owned⟩ := held
    exact agrees key (alike.sound.lt_size owned)
  have source := same (mem_wiring.mp mem).2
  have target : g c.target = f c.target := by
    rcases alike.sound.target_of_mem_wiring mem with destined | held
    · rw [destined]
      exact agrees _ (alike.sound.ledger.destination_lt)
    · exact same held
  simp only [Connection.map, source, target]

end Congruence

end Alike

section Steps

variable {band : String → Prop} {f g : NodeKey → NodeKey} {racks racks' : Racks}
  {graph after graph' after' : Graph τ} {name : String} {rack rack' changed changed' : Rack}

theorem held_congr {holder : Holder} (same : racks' holder.instrument = racks holder.instrument) :
    racks'.held holder = racks.held holder := by
  cases holder with
  | ring name id =>
    have same : racks' name = racks name := same
    simp only [held, ring?, same]
  | stage name id =>
    have same : racks' name = racks name := same
    simp only [held, stage?, same]

theorem owns_congr (same : racks' name = racks name) (key : NodeKey) :
    racks'.Owns name key ↔ racks.Owns name key := by
  constructor
  · rintro ⟨holder, rfl, mem⟩
    exact ⟨holder, rfl, held_congr same ▸ mem⟩
  · rintro ⟨holder, rfl, mem⟩
    exact ⟨holder, rfl, (held_congr same).symm ▸ mem⟩

theorem holds_congr (same : ∀ name, band name → racks' name = racks name) (key : NodeKey) :
    racks'.Holds band key ↔ racks.Holds band key :=
  exists_congr fun name => and_congr_right fun member => owns_congr (same name member) key

/-! ### Outside of the band -/

variable [Fourier]

/-- The instruments of a band stayed as they were. -/
structure Beside (band : String → Prop) (racks : Racks) (graph : Graph τ) (racks' : Racks)
    (after : Graph τ) : Prop where
  sound : racks'.Sound after
  clock : after.clock = graph.clock
  same : ∀ name, band name → racks' name = racks name
  nodes : ∀ key, racks.Holds band key → after.node? key = graph.node? key
  wiring : racks'.wiring band after = racks.wiring band graph

/-- What is not seen in the one graph leaves it like the other. -/
theorem Alike.left {other : Racks} (alike : Alike band f racks graph racks' graph')
    (beside : Beside band racks graph other after) : Alike band f other after racks' graph' where
  sound := beside.sound
  sound' := alike.sound'
  clock := by rw [alike.clock, beside.clock]
  destination := alike.destination
  rings := by
    intro name member id
    rw [show other.ring? name id = racks.ring? name id by rw [ring?, beside.same name member]; rfl]
    exact alike.rings name member id
  stages := by
    intro name member id
    rw [show other.stage? name id = racks.stage? name id by rw [stage?, beside.same name member]; rfl]
    exact alike.stages name member id
  labels := by
    intro name member
    rw [beside.same name member]
    exact alike.labels name member
  nodes := by
    intro key held
    have held := (holds_congr beside.same key).mp held
    rw [beside.nodes key held]
    exact alike.nodes key held
  wiring := by rw [beside.wiring, alike.wiring]

theorem Alike.right {other : Racks} (alike : Alike band f racks graph racks' graph')
    (beside : Beside band racks' graph' other after) : Alike band f racks graph other after where
  sound := alike.sound
  sound' := beside.sound
  clock := by rw [beside.clock, alike.clock]
  destination := alike.destination
  rings := by
    intro name member id
    rw [show other.ring? name id = racks'.ring? name id by
      rw [ring?, beside.same name member]; rfl]
    exact alike.rings name member id
  stages := by
    intro name member id
    rw [show other.stage? name id = racks'.stage? name id by
      rw [stage?, beside.same name member]; rfl]
    exact alike.stages name member id
  labels := by
    intro name member
    rw [beside.same name member]
    exact alike.labels name member
  nodes := by
    intro key held
    rw [beside.nodes _ (alike.holds held)]
    exact alike.nodes key held
  wiring := by rw [beside.wiring, alike.wiring]

/-- A rack outside of the band is changed. -/
theorem Sound.beside_set (sound : (racks.set name rack).Sound graph)
    (sound' : (racks.set name changed).Sound after) (outside : ¬ band name)
    (clock : after.clock = graph.clock) (spares : racks.Spares name graph after)
    {keep : Connection → Bool} {wires : List Connection}
    (connections : after.connections = graph.connections.filter keep ++ wires)
    (kept : ∀ c ∈ (racks.set name rack).wiring band graph, keep c = true)
    (mine : ∀ c ∈ wires, (racks.set name changed).Owns name c.source) :
    Beside band (racks.set name rack) graph (racks.set name changed) after where
  sound := sound'
  clock := clock
  same := by
    intro other member
    have differs : other ≠ name := fun same => outside (same ▸ member)
    rw [set_of_ne differs, set_of_ne differs]
  nodes := by
    rintro key ⟨other, member, owned⟩
    have differs : other ≠ name := fun same => outside (same ▸ member)
    exact spares other key differs ((owns_set_of_ne differs rack key).mp owned)
  wiring := by
    rw [sound.wiring_eq sound' (sound.stays_set sound') connections, List.filter_eq_self.mpr kept,
      fromBand_eq_nil, List.append_nil]
    rintro c mem ⟨other, member, owned⟩
    exact outside (sound'.owner_unique owned (mine c mem) ▸ member)

/-! ### Within the band -/

/-- A rack of the band is changed in the same way in both graphs. -/
theorem Alike.set (alike : Alike band f (racks.set name rack) graph (racks'.set name rack') graph')
    (sound : (racks.set name changed).Sound after)
    (sound' : (racks'.set name changed').Sound after') (clock : after.clock = graph.clock)
    (clock' : after'.clock = graph'.clock) (agrees : ∀ key < graph.nodes.size, g key = f key)
    (spares : racks.Spares name graph after) (spares' : racks'.Spares name graph' after')
    (rings : ∀ id, Option.Rel (RingOscillator.Twin g) (changed.oscillators.find? id)
      (changed'.oscillators.find? id))
    (stages : ∀ id, changed'.gains.find? id = (changed.gains.find? id).map (GainStage.map g))
    (labels : changed'.labels = changed.labels)
    (nodes : ∀ key, (racks.set name changed).Owns name key →
      (after'.node? (g key)).map Node.unnumbered = (after.node? key).map Node.unnumbered)
    {keep keep' : Connection → Bool} {wires : List Connection}
    (connections : after.connections = graph.connections.filter keep ++ wires)
    (connections' : after'.connections =
      graph'.connections.filter keep' ++ wires.map (Connection.map g))
    (kept : ∀ c ∈ (racks.set name rack).wiring band graph, keep' (c.map f) = keep c)
    (mine : ∀ c ∈ wires, (racks.set name changed).Owns name c.source)
    (mine' : ∀ c ∈ wires, (racks'.set name changed').Owns name (g c.source)) (member : band name) :
    Alike band g (racks.set name changed) after (racks'.set name changed') after' := by
  -- what another instrument held has its place below what was added
  have agrees_owned {other : String} {key : NodeKey}
      (owned : (racks.set name rack).Owns other key) : g key = f key :=
    agrees key (alike.sound.lt_size owned)
  constructor
  case sound => exact sound
  case sound' => exact sound'
  case clock => rw [clock', alike.clock, clock]
  case destination =>
    rw [agrees _ alike.sound.ledger.destination_lt]
    exact alike.destination
  case rings =>
    intro other other_member id
    rw [ring?_set, ring?_set]
    split
    · exact rings id
    · rename_i differs
      have old := alike.rings_congr agrees other_member id
      rwa [ring?_set, ring?_set, if_neg differs, if_neg differs] at old
  case stages =>
    intro other other_member id
    rw [stage?_set, stage?_set]
    split
    · exact stages id
    · rename_i differs
      have old := alike.stages_congr agrees other_member id
      rwa [stage?_set, stage?_set, if_neg differs, if_neg differs] at old
  case labels =>
    intro other other_member
    by_cases here : other = name
    · subst here
      rw [set_self, set_self, Option.map_some, Option.map_some, labels]
    · have old := alike.labels other other_member
      rw [set_of_ne here, set_of_ne here] at old ⊢
      exact old
  case nodes =>
    rintro key ⟨other, other_member, owned⟩
    by_cases here : other = name
    · subst here
      exact nodes key owned
    · have theirs := (owns_set_of_ne here changed key).mp owned
      have owned := (owns_set_of_ne here rack key).mpr theirs
      have owned' := alike.owns other_member owned
      rw [agrees_owned owned, spares other key here theirs,
        spares' other _ here ((owns_set_of_ne here rack' _).mp owned')]
      exact alike.nodes key ⟨other, other_member, owned⟩
  case wiring =>
    have all : (racks.set name changed).fromBand band wires = wires :=
      fromBand_eq_self fun c mem => ⟨name, member, mine c mem⟩
    have all' : (racks'.set name changed').fromBand band (wires.map (Connection.map g)) =
        wires.map (Connection.map g) := by
      refine fromBand_eq_self fun c mem => ?_
      obtain ⟨wire, listed, rfl⟩ := List.mem_map.mp mem
      exact ⟨name, member, mine' wire listed⟩
    have still : ((racks.set name rack).wiring band graph).filter (keep' ∘ Connection.map f) =
        ((racks.set name rack).wiring band graph).filter keep := List.filter_congr kept
    rw [alike.sound.wiring_eq sound (alike.sound.stays_set sound) connections, all,
      alike.sound'.wiring_eq sound' (alike.sound'.stays_set sound') connections', all',
      alike.wiring, List.filter_map, List.map_append, still]
    congr 1
    exact List.map_congr_left fun c mem =>
      (alike.map_congr agrees (List.mem_filter.mp mem).1).symm

end Steps

end Racks

end Patchbay
