import Patchbay.Proofs.Graph.Growth
import Patchbay.Proofs.Voice.Recall
import Patchbay.Transport

/-!
# Who holds which node

Every node but the destination is held by one oscillator or one gain stage of one rack, and
connections stay within a rack or go to the destination. This is what lets one rack be furnished,
patched and played without a look at the others.
-/
namespace Patchbay

/-- What holds nodes: an oscillator or a gain stage, by the names of its instrument and its
part. -/
inductive Holder where
  | ring (name id : String)
  | stage (name id : String)
  deriving DecidableEq

def Holder.instrument : Holder → String
  | ring name _ => name
  | stage name _ => name

/-- The nodes that a ring holds. -/
def RingOscillator.keys (ring : RingOscillator) : List NodeKey :=
  ring.oscillator.output :: ring.oscillator.control :: ring.oscillator.nodes

theorem RingOscillator.output_mem_keys (ring : RingOscillator) :
    ring.oscillator.output ∈ ring.keys :=
  List.mem_cons_self

theorem RingOscillator.control_mem_keys (ring : RingOscillator) :
    ring.oscillator.control ∈ ring.keys :=
  List.mem_cons_of_mem _ List.mem_cons_self

theorem RingOscillator.mem_keys {ring : RingOscillator} {key : NodeKey} : key ∈ ring.keys ↔
    key = ring.oscillator.output ∨ key = ring.oscillator.control ∨ key ∈ ring.oscillator.nodes := by
  simp [keys]

theorem RingOscillator.mem_keys_of_counted {ring : RingOscillator} {key : NodeKey}
    (counted : key ∈ ring.oscillator.nodes) : key ∈ ring.keys :=
  List.mem_cons_of_mem _ (List.mem_cons_of_mem _ counted)

/-- Racks under the names of their instruments. -/
abbrev Racks : Type := String → Option Rack

namespace Racks

/-- Put a rack under a name. -/
def set (racks : Racks) (name : String) (rack : Rack) : Racks :=
  fun other => if other = name then some rack else racks other

def ring? (racks : Racks) (name id : String) : Option RingOscillator :=
  (racks name).bind (·.oscillators.find? id)

def stage? (racks : Racks) (name id : String) : Option GainStage :=
  (racks name).bind (·.gains.find? id)

def output (racks : Racks) (name id : String) : NodeKey :=
  (racks.ring? name id).elim Graph.destination (·.oscillator.output)

def control (racks : Racks) (name id : String) : NodeKey :=
  (racks.ring? name id).elim Graph.destination (·.oscillator.control)

/-- The nodes that a holder holds. -/
def held (racks : Racks) : Holder → List NodeKey
  | .ring name id => (racks.ring? name id).elim [] RingOscillator.keys
  | .stage name id => (racks.stage? name id).elim [] fun stage => [stage.key]

/-- An instrument holds a node. -/
def Owns (racks : Racks) (name : String) (key : NodeKey) : Prop :=
  ∃ holder : Holder, holder.instrument = name ∧ key ∈ racks.held holder

variable {racks : Racks} {name : String} {rack : Rack}

@[simp] theorem set_self : racks.set name rack name = some rack := if_pos rfl

theorem set_of_ne {other : String} (h : other ≠ name) : racks.set name rack other = racks other :=
  if_neg h

theorem set_eq_self (h : racks name = some rack) : racks.set name rack = racks := by
  funext other
  simp only [set]
  split
  · rename_i same
    rw [same, h]
  · rfl

theorem find?_insert (roster : Roster Rack) (name : String) (rack : Rack) :
    (roster.insert name rack).find? = Racks.set roster.find? name rack := by
  funext other
  exact Roster.find?_insert roster name rack other

theorem ring?_set (other id : String) : (racks.set name rack).ring? other id =
    if other = name then rack.oscillators.find? id else racks.ring? other id := by
  simp only [ring?, set]
  split <;> rfl

theorem stage?_set (other id : String) : (racks.set name rack).stage? other id =
    if other = name then rack.gains.find? id else racks.stage? other id := by
  simp only [stage?, set]
  split <;> rfl

theorem ring?_eq_some_iff {id : String} {ring : RingOscillator} : racks.ring? name id = some ring ↔
    ∃ rack, racks name = some rack ∧ rack.oscillators.find? id = some ring :=
  Option.bind_eq_some_iff

theorem stage?_eq_some_iff {id : String} {stage : GainStage} : racks.stage? name id = some stage ↔
    ∃ rack, racks name = some rack ∧ rack.gains.find? id = some stage :=
  Option.bind_eq_some_iff

theorem mem_held_ring {id : String} {ring : RingOscillator} {key : NodeKey}
    (found : racks.ring? name id = some ring) :
    key ∈ racks.held (.ring name id) ↔ key ∈ ring.keys := by
  simp [held, found]

theorem mem_held_stage {id : String} {stage : GainStage} {key : NodeKey}
    (found : racks.stage? name id = some stage) :
    key ∈ racks.held (.stage name id) ↔ key = stage.key := by
  simp [held, found]

/-- What holds a node is there. -/
theorem exists_ring_of_mem_held {id : String} {key : NodeKey}
    (mem : key ∈ racks.held (.ring name id)) :
    ∃ ring, racks.ring? name id = some ring ∧ key ∈ ring.keys := by
  cases found : racks.ring? name id with
  | none => simp [held, found] at mem
  | some ring => exact ⟨ring, rfl, (mem_held_ring found).mp mem⟩

theorem exists_stage_of_mem_held {id : String} {key : NodeKey}
    (mem : key ∈ racks.held (.stage name id)) :
    ∃ stage, racks.stage? name id = some stage ∧ key = stage.key := by
  cases found : racks.stage? name id with
  | none => simp [held, found] at mem
  | some stage => exact ⟨stage, rfl, (mem_held_stage found).mp mem⟩

/-- An instrument holds the nodes of its rings and those of its stages. -/
theorem Owns.ring_or_stage {key : NodeKey} (owned : racks.Owns name key) :
    (∃ id ring, racks.ring? name id = some ring ∧ key ∈ ring.keys) ∨
      ∃ id stage, racks.stage? name id = some stage ∧ key = stage.key := by
  obtain ⟨holder, rfl, mem⟩ := owned
  cases holder with
  | ring name id => exact .inl ⟨id, exists_ring_of_mem_held mem⟩
  | stage name id => exact .inr ⟨id, exists_stage_of_mem_held mem⟩

end Racks

variable {τ : Type}

/-- Every node but the destination has one holder, which counts it once. -/
structure Ledger (held : Holder → List NodeKey) (graph : Graph τ) : Prop where
  once : ∀ holder, (held holder).Nodup
  apart : ∀ holder other key, key ∈ held holder → key ∈ held other → holder = other
  lives : ∀ key, graph.contains key ↔ key = Graph.destination ∨ ∃ holder, key ∈ held holder
  inner : ∀ holder, Graph.destination ∉ held holder

section Soundness

variable [Fourier]

/-- The nodes of a ring are what it takes them for, and its memos are sound. -/
structure RingOscillator.Sound (ring : RingOscillator) (graph : Graph τ) : Prop where
  output : graph.node? ring.oscillator.output = some (.gain 1.0)
  control : graph.kind? ring.oscillator.control = some .constant
  voices : ∀ key ∈ ring.oscillator.nodes, graph.kind? key =
    some (if key ∈ ring.oscillator.generators then .generator else .gain)
  generators : ring.oscillator.generators.Sublist ring.oscillator.nodes
  kept : ∀ memo, ring.Keeps memo → memo.Made graph.rate
  voiced : ring.oscillator.nodes ≠ [] → binCount graph.rate ≤ Partials.maxBins

/-- Racks and the graph that they live in. -/
structure Racks.Sound (racks : Racks) (graph : Graph τ) : Prop where
  wellFormed : graph.WellFormed
  ledger : Ledger racks.held graph
  rings : ∀ name id ring, racks.ring? name id = some ring → ring.Sound graph
  stages : ∀ name id stage, racks.stage? name id = some stage →
    graph.kind? stage.key = some .gain
  sinks : ∀ name rack id key, racks name = some rack → rack.sinks.find? id = some key →
    key = Graph.destination
  wired : ∀ c ∈ graph.connections, ∃ name, racks.Owns name c.source ∧
    (c.target = Graph.destination ∨ racks.Owns name c.target)
  /-- A frequency control drives the voices of its ring and nothing else. -/
  controls : ∀ c ∈ graph.connections, ∀ name id ring, racks.ring? name id = some ring →
    c.source = ring.oscillator.control → c.target ∈ ring.oscillator.nodes

theorem RingOscillator.Sound.of_same {ring : RingOscillator} {graph after : Graph τ}
    (sound : ring.Sound graph) (same : ∀ key ∈ ring.keys, after.node? key = graph.node? key)
    (rate : after.rate = graph.rate) : ring.Sound after where
  output := by rw [same _ List.mem_cons_self, sound.output]
  control := by
    have control := sound.control
    rwa [Graph.kind?, ← same _ (RingOscillator.control_mem_keys _)] at control
  voices := by
    intro key mem
    have voices := sound.voices key mem
    rwa [Graph.kind?, ← same _ (RingOscillator.mem_keys_of_counted mem)] at voices
  generators := sound.generators
  kept := rate ▸ sound.kept
  voiced := rate ▸ sound.voiced

end Soundness

variable {held held' : Holder → List NodeKey} {graph after : Graph τ}

theorem Ledger.lt_size (ledger : Ledger held graph) {holder : Holder} {key : NodeKey}
    (mem : key ∈ held holder) : key < graph.nodes.size := by
  obtain ⟨node, found⟩ :=
    Option.isSome_iff_exists.mp ((ledger.lives key).mpr (.inr ⟨holder, mem⟩))
  exact Graph.lt_size_of_node? found

theorem Ledger.destination_lt (ledger : Ledger held graph) :
    Graph.destination < graph.nodes.size := by
  obtain ⟨node, found⟩ := Option.isSome_iff_exists.mp ((ledger.lives _).mpr (.inl rfl))
  exact Graph.lt_size_of_node? found

/-- One holder may take new nodes and let nodes go. -/
theorem Ledger.update (ledger : Ledger held graph) (holder : Holder)
    (others : ∀ other, other ≠ holder → held' other = held other) (once : (held' holder).Nodup)
    (new : ∀ key ∈ held' holder, key ∈ held holder ∨ graph.nodes.size ≤ key)
    (lives : ∀ key, after.contains key ↔
      key ∈ held' holder ∨ graph.contains key ∧ key ∉ held holder) : Ledger held' after where
  once := by
    intro other
    by_cases here : other = holder
    · exact here ▸ once
    · exact others other here ▸ ledger.once other
  apart := by
    -- what is new is beyond all that another holder can hold
    have separate {other : Holder} {key : NodeKey} (differs : other ≠ holder)
        (mine : key ∈ held' holder) (theirs : key ∈ held' other) : False := by
      rw [others other differs] at theirs
      rcases new key mine with old | new
      · exact differs (ledger.apart _ _ key theirs old)
      · exact Nat.not_le.mpr (ledger.lt_size theirs) new
    intro first second key mem mem'
    by_cases here : first = holder
    · by_cases there : second = holder
      · exact here.trans there.symm
      · exact (separate there (here ▸ mem) mem').elim
    · by_cases there : second = holder
      · exact (separate here (there ▸ mem') mem).elim
      · rw [others _ here] at mem
        rw [others _ there] at mem'
        exact ledger.apart _ _ key mem mem'
  lives := by
    intro key
    rw [lives, ledger.lives]
    constructor
    · rintro (mine | ⟨rfl | ⟨other, theirs⟩, not_mine⟩)
      · exact .inr ⟨holder, mine⟩
      · exact .inl rfl
      · have differs : other ≠ holder := fun same => not_mine (same ▸ theirs)
        exact .inr ⟨other, others other differs ▸ theirs⟩
    · rintro (rfl | ⟨other, mem⟩)
      · exact .inr ⟨.inl rfl, ledger.inner holder⟩
      · by_cases here : other = holder
        · exact .inl (here ▸ mem)
        · rw [others other here] at mem
          exact .inr ⟨.inr ⟨other, mem⟩, fun mine => here (ledger.apart _ _ key mem mine)⟩
  inner := by
    intro other mem
    by_cases here : other = holder
    · rcases new _ (here ▸ mem) with old | new
      · exact ledger.inner _ old
      · exact Nat.not_le.mpr ledger.destination_lt new
    · exact ledger.inner other (others other here ▸ mem)

theorem Ledger.of_same (ledger : Ledger held graph)
    (lives : ∀ key, after.contains key = graph.contains key) : Ledger held after where
  once := ledger.once
  apart := ledger.apart
  lives := fun key => by rw [lives, ledger.lives]
  inner := ledger.inner

/-! ### Steps of one holder -/

namespace Racks

variable {racks racks' : Racks} {name : String} {rack : Rack}

section Owners

variable [Fourier]

theorem Sound.lt_size (sound : racks.Sound graph) {name : String} {key : NodeKey}
    (owned : racks.Owns name key) : key < graph.nodes.size := by
  obtain ⟨holder, -, mem⟩ := owned
  exact sound.ledger.lt_size mem

theorem Sound.contains_of_owns (sound : racks.Sound graph) {name : String} {key : NodeKey}
    (owned : racks.Owns name key) : graph.contains key := by
  obtain ⟨holder, -, mem⟩ := owned
  exact (sound.ledger.lives key).mpr (.inr ⟨holder, mem⟩)

theorem Sound.owned_ne_destination (sound : racks.Sound graph) {name : String} {key : NodeKey}
    (owned : racks.Owns name key) : key ≠ Graph.destination := by
  rintro rfl
  obtain ⟨holder, -, mem⟩ := owned
  exact sound.ledger.inner holder mem

/-- Instruments share no node. -/
theorem Sound.owner_unique (sound : racks.Sound graph) {other : String} {key : NodeKey}
    (mine : racks.Owns name key) (theirs : racks.Owns other key) : name = other := by
  obtain ⟨holder, rfl, mem⟩ := mine
  obtain ⟨holder', rfl, mem'⟩ := theirs
  rw [sound.ledger.apart _ _ key mem mem']

end Owners

theorem owns_ring {id : String} {ring : RingOscillator} (found : racks.ring? name id = some ring)
    {key : NodeKey} (mem : key ∈ ring.keys) : racks.Owns name key :=
  ⟨.ring name id, rfl, (mem_held_ring found).mpr mem⟩

theorem owns_stage {id : String} {stage : GainStage} (found : racks.stage? name id = some stage) :
    racks.Owns name stage.key :=
  ⟨.stage name id, rfl, (mem_held_stage found).mpr rfl⟩

/-- What an instrument held and still lives it holds, when one holder has changed. -/
theorem Sound.owns_of_update (holder : Holder)
    (others : ∀ other, other ≠ holder → racks'.held other = racks.held other)
    (lives : ∀ key, after.contains key ↔
      key ∈ racks'.held holder ∨ graph.contains key ∧ key ∉ racks.held holder)
    {key : NodeKey} (owned : racks.Owns name key) (alive : after.contains key) :
    racks'.Owns name key := by
  obtain ⟨other, named, mem⟩ := owned
  refine ⟨other, named, ?_⟩
  by_cases here : other = holder
  · rw [here] at mem ⊢
    exact ((lives key).mp alive).resolve_right fun gone => gone.2 mem
  · rwa [others other here]

section Changes

variable [Fourier]

/-- One holder takes new nodes or lets nodes go, and wires what it holds. -/
theorem Sound.update (sound : racks.Sound graph) (holder : Holder)
    (wellFormed : after.WellFormed)
    (others : ∀ other, other ≠ holder → racks'.held other = racks.held other)
    (once : (racks'.held holder).Nodup)
    (new : ∀ key ∈ racks'.held holder, key ∈ racks.held holder ∨ graph.nodes.size ≤ key)
    (lives : ∀ key, after.contains key ↔
      key ∈ racks'.held holder ∨ graph.contains key ∧ key ∉ racks.held holder)
    (rings : ∀ name id ring, racks'.ring? name id = some ring → ring.Sound after)
    (stages : ∀ name id stage, racks'.stage? name id = some stage →
      after.kind? stage.key = some .gain)
    (sinks : ∀ name rack id key, racks' name = some rack → rack.sinks.find? id = some key →
      key = Graph.destination)
    (wires : ∀ c ∈ after.connections, c ∈ graph.connections ∨
      c.source ∈ racks'.held holder ∧ c.target ∈ racks'.held holder)
    (controls : ∀ c ∈ after.connections, ∀ name id ring, racks'.ring? name id = some ring →
      c.source = ring.oscillator.control → c.target ∈ ring.oscillator.nodes) :
    racks'.Sound after where
  wellFormed := wellFormed
  ledger := sound.ledger.update holder others once new lives
  rings := rings
  stages := stages
  sinks := sinks
  wired := by
    intro c mem
    rcases wires c mem with old | ⟨source, target⟩
    · obtain ⟨name, source, target⟩ := sound.wired c old
      obtain ⟨⟨_, source_lives, _⟩, ⟨_, target_lives, _⟩, _⟩ :=
        Graph.admits_iff.mp (wellFormed.admitted c mem)
      refine ⟨name, Sound.owns_of_update holder others lives source ?_,
        target.imp_right fun owned => Sound.owns_of_update holder others lives owned ?_⟩
      · simp [Graph.contains, source_lives]
      · simp [Graph.contains, target_lives]
    · exact ⟨holder.instrument, ⟨holder, rfl, source⟩, .inr ⟨holder, rfl, target⟩⟩
  controls := controls

/-- Where kinds stay and new connections come from no control, all stays sound. -/
theorem Sound.rewire (sound : racks.Sound graph) (wellFormed : after.WellFormed)
    (kinds : ∀ key, after.kind? key = graph.kind? key)
    (outputs : ∀ name id ring, racks.ring? name id = some ring →
      after.node? ring.oscillator.output = graph.node? ring.oscillator.output)
    (rate : after.rate = graph.rate)
    (wires : ∀ c ∈ after.connections, c ∈ graph.connections ∨
      (∃ name, racks.Owns name c.source ∧
        (c.target = Graph.destination ∨ racks.Owns name c.target)) ∧
      ∀ name id ring, racks.ring? name id = some ring → c.source ≠ ring.oscillator.control) :
    racks.Sound after where
  wellFormed := wellFormed
  ledger := sound.ledger.of_same fun key => by
    rw [Graph.contains_eq_isSome_kind?, Graph.contains_eq_isSome_kind?, kinds]
  rings := by
    intro name id ring found
    have ring_sound := sound.rings name id ring found
    constructor
    case output => rw [outputs name id ring found, ring_sound.output]
    case control => rw [kinds, ring_sound.control]
    case voices => simpa only [kinds] using ring_sound.voices
    case generators => exact ring_sound.generators
    case kept => exact rate ▸ ring_sound.kept
    case voiced => exact rate ▸ ring_sound.voiced
  stages := by simpa only [kinds] using sound.stages
  sinks := sound.sinks
  wired := fun c mem => (wires c mem).elim (sound.wired c) And.left
  controls := by
    intro c mem name id ring found driven
    rcases wires c mem with old | ⟨-, no_control⟩
    · exact sound.controls c old name id ring found driven
    · exact absurd driven (no_control name id ring found)

theorem Sound.reported (sound : racks.Sound graph) (h : graph.Reported after) :
    racks.Sound after := by
  have wellFormed := h.wellFormed sound.wellFormed
  obtain ⟨_, _, rfl⟩ := h
  exact sound.rewire wellFormed (fun _ => rfl) (fun _ _ _ _ => rfl) rfl fun _ mem => .inl mem

/-! ### One ring or one stage of a rack -/

end Changes

theorem ring?_putOscillator (id other part : String) (ring : RingOscillator) :
    (racks.set name (rack.putOscillator id ring)).ring? other part =
      if other = name ∧ part = id then some ring else (racks.set name rack).ring? other part := by
  rw [ring?_set, ring?_set, Rack.putOscillator]
  by_cases here : other = name
  · by_cases there : part = id
    · simp [here, there]
    · simp [here, there, Roster.find?_insert]
  · simp [here]

theorem stage?_putOscillator (id other part : String) (ring : RingOscillator) :
    (racks.set name (rack.putOscillator id ring)).stage? other part =
      (racks.set name rack).stage? other part := by
  rw [stage?_set, stage?_set]
  rfl

theorem ring?_putGain (id other part : String) (stage : GainStage) :
    (racks.set name (rack.putGain id stage)).ring? other part =
      (racks.set name rack).ring? other part := by
  rw [ring?_set, ring?_set]
  rfl

theorem stage?_putGain (id other part : String) (stage : GainStage) :
    (racks.set name (rack.putGain id stage)).stage? other part =
      if other = name ∧ part = id then some stage
      else (racks.set name rack).stage? other part := by
  rw [stage?_set, stage?_set, Rack.putGain]
  by_cases here : other = name
  · by_cases there : part = id
    · simp [here, there]
    · simp [here, there, Roster.find?_insert]
  · simp [here]

variable [Fourier]

/-- Sinks lead to the destination after one rack is changed if they do so in this rack. -/
theorem Sound.sinks_set (sound : (racks.set name rack).Sound graph) {other : Rack}
    (sinks : ∀ id key, other.sinks.find? id = some key → key = Graph.destination) (place : String)
    (found_rack : Rack) (id : String) (key : NodeKey)
    (found : racks.set name other place = some found_rack)
    (sink : found_rack.sinks.find? id = some key) : key = Graph.destination := by
  by_cases here : place = name
  · subst here
    rw [set_self] at found
    cases found
    exact sinks id key sink
  · refine sound.sinks place found_rack id key ?_ sink
    rw [set_of_ne here] at found ⊢
    exact found

theorem Sound.sinks_self (sound : (racks.set name rack).Sound graph) (id : String) (key : NodeKey)
    (sink : rack.sinks.find? id = some key) : key = Graph.destination :=
  sound.sinks name rack id key set_self sink

/-- An oscillator of a rack is put in place of what was under its id: it may hold new nodes and
no longer hold old ones. -/
theorem Sound.putOscillator (sound : (racks.set name rack).Sound graph) {id : String}
    {ring : RingOscillator} (wellFormed : after.WellFormed) (ring_sound : ring.Sound after)
    (rate : after.rate = graph.rate) (once : ring.keys.Nodup)
    (new : ∀ key ∈ ring.keys,
      key ∈ (racks.set name rack).held (.ring name id) ∨ graph.nodes.size ≤ key)
    (lives : ∀ key, after.contains key ↔
      key ∈ ring.keys ∨ graph.contains key ∧ key ∉ (racks.set name rack).held (.ring name id))
    (kept : ∀ key, graph.contains key → key ∉ (racks.set name rack).held (.ring name id) →
      after.node? key = graph.node? key)
    (wires : ∀ c ∈ after.connections, c ∈ graph.connections ∨
      c.source ∈ ring.keys ∧ c.target ∈ ring.keys)
    (control : ∀ c ∈ after.connections, c.source = ring.oscillator.control →
      c.target ∈ ring.oscillator.nodes) :
    (racks.set name (rack.putOscillator id ring)).Sound after := by
  have held_here : (racks.set name (rack.putOscillator id ring)).held (.ring name id) = ring.keys := by
    simp [held, ring?_putOscillator]
  have held_others (other : Holder) (differs : other ≠ .ring name id) :
      (racks.set name (rack.putOscillator id ring)).held other = (racks.set name rack).held other := by
    cases other with
    | ring place part =>
      have apart : ¬ (place = name ∧ part = id) := fun ⟨named, same⟩ => differs (by rw [named, same])
      simp [held, ring?_putOscillator, apart]
    | stage place part => simp [held, stage?_putOscillator]
  -- what another holder holds lives and is not held here
  have spared {other : Holder} {key : NodeKey} (differs : other ≠ .ring name id)
      (mem : key ∈ (racks.set name rack).held other) : after.node? key = graph.node? key := by
    refine kept key ((sound.ledger.lives key).mpr (.inr ⟨other, mem⟩)) fun here => ?_
    exact differs (sound.ledger.apart _ _ key mem here)
  refine sound.update (.ring name id) wellFormed held_others (held_here ▸ once)
    (by simpa only [held_here] using new) (by simpa only [held_here] using lives) ?_ ?_
    (sound.sinks_set sound.sinks_self) (by simpa only [held_here] using wires) ?_
  · intro place part found_ring found
    rw [ring?_putOscillator] at found
    split at found
    · cases found
      exact ring_sound
    · rename_i apart
      refine (sound.rings place part found_ring found).of_same (fun key mem => ?_) rate
      refine spared (fun same => apart ?_) ((mem_held_ring found).mpr mem)
      injection same with named same
      exact ⟨named, same⟩
  · intro place part stage found
    rw [stage?_putOscillator] at found
    rw [Graph.kind?, spared (by simp) ((mem_held_stage found).mpr rfl)]
    exact sound.stages place part stage found
  · intro c mem place part found_ring found driven
    rw [ring?_putOscillator] at found
    split at found
    · cases found
      exact control c mem driven
    · rename_i apart
      rcases wires c mem with old | ⟨source, -⟩
      · exact sound.controls c old place part found_ring found driven
      · have theirs : c.source ∈ (racks.set name rack).held (.ring place part) := by
          rw [mem_held_ring found, driven]
          exact List.mem_cons_of_mem _ List.mem_cons_self
        exfalso
        rcases new c.source source with mine | beyond
        · have same := sound.ledger.apart _ _ c.source theirs mine
          injection same with named same
          exact apart ⟨named, same⟩
        · exact Nat.not_le.mpr (sound.ledger.lt_size theirs) beyond

/-- A gain stage of a rack is put in place of what was under its id. -/
theorem Sound.putGain (sound : (racks.set name rack).Sound graph) {id : String}
    {stage : GainStage} (wellFormed : after.WellFormed)
    (kind : after.kind? stage.key = some .gain) (rate : after.rate = graph.rate)
    (new : stage.key ∈ (racks.set name rack).held (.stage name id) ∨
      graph.nodes.size ≤ stage.key)
    (lives : ∀ key, after.contains key ↔
      key = stage.key ∨ graph.contains key ∧ key ∉ (racks.set name rack).held (.stage name id))
    (kept : ∀ key, graph.contains key → key ∉ (racks.set name rack).held (.stage name id) →
      after.node? key = graph.node? key)
    (connections : after.connections = graph.connections) :
    (racks.set name (rack.putGain id stage)).Sound after := by
  have held_here : (racks.set name (rack.putGain id stage)).held (.stage name id) = [stage.key] := by
    simp [held, stage?_putGain]
  have held_others (other : Holder) (differs : other ≠ .stage name id) :
      (racks.set name (rack.putGain id stage)).held other = (racks.set name rack).held other := by
    cases other with
    | ring place part => simp [held, ring?_putGain]
    | stage place part =>
      have apart : ¬ (place = name ∧ part = id) := fun ⟨named, same⟩ => differs (by rw [named, same])
      simp [held, stage?_putGain, apart]
  have spared {other : Holder} {key : NodeKey} (differs : other ≠ .stage name id)
      (mem : key ∈ (racks.set name rack).held other) : after.node? key = graph.node? key := by
    refine kept key ((sound.ledger.lives key).mpr (.inr ⟨other, mem⟩)) fun here => ?_
    exact differs (sound.ledger.apart _ _ key mem here)
  refine sound.update (.stage name id) wellFormed held_others (by simp [held_here])
    (by simpa [held_here] using new) (by simpa [held_here] using lives) ?_ ?_
    (sound.sinks_set sound.sinks_self) (fun c mem => .inl (connections ▸ mem)) ?_
  · intro place part ring found
    rw [ring?_putGain] at found
    exact (sound.rings place part ring found).of_same
      (fun key mem => spared (by simp) ((mem_held_ring found).mpr mem)) rate
  · intro place part found_stage found
    rw [stage?_putGain] at found
    split at found
    · cases found
      exact kind
    · rename_i apart
      rw [Graph.kind?, spared (fun same => apart ?_) ((mem_held_stage found).mpr rfl)]
      · exact sound.stages place part found_stage found
      · injection same with named same
        exact ⟨named, same⟩
  · intro c mem place part ring found driven
    rw [ring?_putGain] at found
    exact sound.controls c (connections ▸ mem) place part ring found driven

end Racks

end Patchbay
