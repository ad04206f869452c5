import Patchbay.Proofs.Transport.History

/-!
# The places of nodes

Every node of a transport has one place: it is the destination, the output stage or the frequency
control of an oscillator, a gain stage, or one entry in the list of nodes that an oscillator counts
among its voices. What stands in these places lives and is of the kind that the place asks for, so
no node is left behind and none is lost.
-/
namespace Patchbay

/-- A place that a node can have, by the names of the instrument and the part. -/
inductive Place where
  | destination
  | output (name id : String)
  | control (name id : String)
  | stage (name id : String)
  /-- One of the nodes that an oscillator counts among its voices. -/
  | counted (name id : String) (index : Nat)
  deriving Repr, DecidableEq

/-- Who holds what stands in a place. Nobody holds the destination. -/
def Place.holder? : Place → Option Holder
  | destination => none
  | output name id | control name id | counted name id _ => some (.ring name id)
  | stage name id => some (.stage name id)

namespace Racks

/-- The node in a place. -/
def at? (racks : Racks) : Place → Option NodeKey
  | .destination => some Graph.destination
  | .output name id => (racks.ring? name id).map (·.oscillator.output)
  | .control name id => (racks.ring? name id).map (·.oscillator.control)
  | .stage name id => (racks.stage? name id).map (·.key)
  | .counted name id index => (racks.ring? name id).bind (·.oscillator.nodes[index]?)

/-- The kind of node that a place asks for. Among the nodes of its voices an oscillator knows the
generators; the others are gains. -/
def kindAt (racks : Racks) (key : NodeKey) : Place → Kind
  | .destination => .destination
  | .output .. | .stage .. => .gain
  | .control .. => .constant
  | .counted name id _ =>
    if (racks.ring? name id).any (key ∈ ·.oscillator.generators) then .generator else .gain

variable {τ : Type} {racks : Racks} {graph : Graph τ} {place other : Place} {key : NodeKey}

/-- What stands in a place is held by the holder of the place. -/
theorem mem_held_of_at (found : racks.at? place = some key) :
    place = .destination ∧ key = Graph.destination ∨
      ∃ holder, place.holder? = some holder ∧ key ∈ racks.held holder := by
  cases place with
  | destination => exact .inl ⟨rfl, (Option.some.inj found).symm⟩
  | output name id =>
    obtain ⟨ring, found_ring, rfl⟩ := Option.map_eq_some_iff.mp found
    exact .inr ⟨_, rfl, (mem_held_ring found_ring).mpr ring.output_mem_keys⟩
  | control name id =>
    obtain ⟨ring, found_ring, rfl⟩ := Option.map_eq_some_iff.mp found
    exact .inr ⟨_, rfl, (mem_held_ring found_ring).mpr ring.control_mem_keys⟩
  | stage name id =>
    obtain ⟨stage, found_stage, rfl⟩ := Option.map_eq_some_iff.mp found
    exact .inr ⟨_, rfl, (mem_held_stage found_stage).mpr rfl⟩
  | counted name id index =>
    obtain ⟨ring, found_ring, listed⟩ := Option.bind_eq_some_iff.mp found
    exact .inr ⟨_, rfl, (mem_held_ring found_ring).mpr
      (RingOscillator.mem_keys_of_counted (List.mem_of_getElem? listed))⟩

/-- What a holder holds stands in one of its places. -/
theorem exists_at_of_mem_held {holder : Holder} (mem : key ∈ racks.held holder) :
    ∃ place, place.holder? = some holder ∧ racks.at? place = some key := by
  cases holder with
  | ring name id =>
    obtain ⟨ring, found, mem⟩ := exists_ring_of_mem_held mem
    rcases RingOscillator.mem_keys.mp mem with rfl | rfl | counted
    · exact ⟨.output name id, rfl, by simp [at?, found]⟩
    · exact ⟨.control name id, rfl, by simp [at?, found]⟩
    · obtain ⟨index, listed⟩ := List.mem_iff_getElem?.mp counted
      exact ⟨.counted name id index, rfl, by simp [at?, found, listed]⟩
  | stage name id =>
    obtain ⟨stage, found, mem⟩ := exists_stage_of_mem_held mem
    exact ⟨.stage name id, rfl, by simp [at?, found, mem]⟩

/-- A ring has its nodes in a row, each at one index, and every place of the ring is an index. -/
theorem index_of_at {name id : String} {ring : RingOscillator}
    (found_ring : racks.ring? name id = some ring) (of_ring : place.holder? = some (.ring name id))
    (found : racks.at? place = some key) :
    ∃ index, ring.keys[index]? = some key ∧ place = match index with
      | 0 => .output name id
      | 1 => .control name id
      | index + 2 => .counted name id index := by
  cases place with
  | destination | stage => simp [Place.holder?] at of_ring
  | output =>
    cases of_ring
    simp only [at?, found_ring, Option.map_some] at found
    exact ⟨0, found, rfl⟩
  | control =>
    cases of_ring
    simp only [at?, found_ring, Option.map_some] at found
    exact ⟨1, found, rfl⟩
  | counted _ _ index =>
    cases of_ring
    simp only [at?, found_ring, Option.bind_some] at found
    exact ⟨index + 2, found, rfl⟩

variable [Fourier]

/-- No node stands in two places. -/
theorem Sound.place_unique (sound : racks.Sound graph) (here : racks.at? place = some key)
    (there : racks.at? other = some key) : place = other := by
  rcases mem_held_of_at here with ⟨rfl, at_destination⟩ | ⟨holder, holds, mem⟩
  · rcases mem_held_of_at there with ⟨rfl, -⟩ | ⟨holder, -, mem⟩
    · rfl
    · exact (sound.ledger.inner holder (at_destination ▸ mem)).elim
  · rcases mem_held_of_at there with ⟨-, rfl⟩ | ⟨holder', holds', mem'⟩
    · exact (sound.ledger.inner holder mem).elim
    · cases sound.ledger.apart holder holder' key mem mem'
      cases holder with
      | ring name id =>
        obtain ⟨ring, found, -⟩ := exists_ring_of_mem_held mem
        -- within a ring, a node that stands once has one index
        obtain ⟨i, at_i, rfl⟩ := index_of_at found holds here
        obtain ⟨j, at_j, rfl⟩ := index_of_at found holds' there
        have once : ring.keys.Nodup := by simpa [held, found] using sound.ledger.once (.ring name id)
        obtain ⟨lt, -⟩ := List.getElem?_eq_some_iff.mp at_i
        rw [(List.getElem?_inj lt once).mp (at_i.trans at_j.symm)]
      | stage name id =>
        cases place <;> cases holds
        cases other <;> cases holds'
        rfl

/-- What stands in a place lives and is of the kind that the place asks for. -/
theorem Sound.kind_at (sound : racks.Sound graph) (found : racks.at? place = some key) :
    graph.kind? key = some (racks.kindAt key place) := by
  cases place with
  | destination =>
    cases found
    exact (sound.wellFormed.destined _).mpr rfl
  | output name id =>
    obtain ⟨ring, found_ring, rfl⟩ := Option.map_eq_some_iff.mp found
    rw [Graph.kind?, (sound.rings name id ring found_ring).output]
    rfl
  | control name id =>
    obtain ⟨ring, found_ring, rfl⟩ := Option.map_eq_some_iff.mp found
    exact (sound.rings name id ring found_ring).control
  | stage name id =>
    obtain ⟨stage, found_stage, rfl⟩ := Option.map_eq_some_iff.mp found
    exact sound.stages name id stage found_stage
  | counted name id index =>
    obtain ⟨ring, found_ring, listed⟩ := Option.bind_eq_some_iff.mp found
    rw [(sound.rings name id ring found_ring).voices key (List.mem_of_getElem? listed)]
    simp [kindAt, found_ring]

/-- Every node that lives stands in one place. -/
theorem Sound.existsUnique_place (sound : racks.Sound graph) (lives : graph.contains key) :
    ∃! place, racks.at? place = some key := by
  suffices exists_place : ∃ place, racks.at? place = some key by
    obtain ⟨place, here⟩ := exists_place
    exact ⟨place, here, fun other there => sound.place_unique there here⟩
  rcases (sound.ledger.lives key).mp lives with rfl | ⟨holder, mem⟩
  · exact ⟨.destination, rfl⟩
  · obtain ⟨place, -, here⟩ := exists_at_of_mem_held mem
    exact ⟨place, here⟩

end Racks

namespace Transport

variable {τ : Type} [TimeAxis τ] [Fourier]

/-- Whatever was done to a transport, its nodes and its racks match: every node that lives stands
in one place, what stands in a place lives and is what it is taken for, the generators of an
oscillator are among the nodes of its voices, and every connection stays within an instrument or
leads from it to the destination. -/
theorem nodes_in_place (settings : Settings) (operations : List (Operation τ)) :
    let graph := (after settings operations).graph
    let racks : Racks := (after settings operations).racks.find?
    (∀ key, graph.contains key → ∃! place, racks.at? place = some key) ∧
      (∀ place key, racks.at? place = some key →
        graph.kind? key = some (racks.kindAt key place)) ∧
      (∀ name id ring, racks.ring? name id = some ring →
        ring.oscillator.generators.Sublist ring.oscillator.nodes) ∧
      ∀ c ∈ graph.connections, ∃ name, racks.Owns name c.source ∧
        (c.target = Graph.destination ∨ racks.Owns name c.target) := by
  intro graph racks
  have sound : racks.Sound graph := (sound_after settings operations).1
  refine ⟨fun key => sound.existsUnique_place, fun place key => sound.kind_at,
    fun name id ring found => ?_, sound.wired⟩
  exact (sound.rings name id ring found).generators

end Transport

end Patchbay
