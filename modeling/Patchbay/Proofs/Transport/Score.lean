import Mathlib.Algebra.GroupWithZero.Nat
import Patchbay.Proofs.Rack.Frames

/-!
# What a pass of scheduling leaves

To schedule notes is to ask oscillators for voices, one after another. The voices take up
neighbouring keys, so that where each of them begins follows from those before it, and everything
that the pass leaves can be read off the list of what was asked.
-/
namespace Patchbay

variable {τ : Type}

/-- A voice that an oscillator of an instrument is asked for. -/
structure Call (τ : Type) where
  name : String
  id : String
  sheet : Sheet τ

namespace Call

/-- The number of nodes of the voice. -/
def width (call : Call τ) : Nat :=
  1 + 3 * call.sheet.branches.length

def isFor (call : Call τ) (name id : String) : Bool :=
  call.name = name ∧ call.id = id

/-- The number of nodes of all voices. -/
def extent (calls : List (Call τ)) : Nat :=
  (calls.map width).sum

/-- The calls with the keys at which their voices begin. -/
def placed (base : Nat) : List (Call τ) → List (Nat × Call τ)
  | [] => []
  | call :: rest => (base, call) :: placed (base + call.width) rest

@[simp] theorem extent_append (calls others : List (Call τ)) :
    extent (calls ++ others) = extent calls + extent others := by
  simp [extent]

theorem placed_append (base : Nat) (calls others : List (Call τ)) :
    placed base (calls ++ others) = placed base calls ++ placed (base + extent calls) others := by
  induction calls generalizing base with
  | nil => rfl
  | cons call rest ih =>
    simp only [List.cons_append, placed, ih, extent, List.map_cons, List.sum_cons, Nat.add_assoc]

theorem mem_of_mem_placed {base : Nat} {calls : List (Call τ)} {p : Nat × Call τ}
    (mem : p ∈ placed base calls) : p.2 ∈ calls := by
  induction calls generalizing base with
  | nil => cases mem
  | cons call rest ih =>
    rcases List.mem_cons.mp mem with rfl | later
    · exact List.mem_cons_self
    · exact List.mem_cons_of_mem _ (ih later)

/-- Voices stay between the first key and the extent of all of them. -/
theorem bounds_of_mem_placed {base : Nat} {calls : List (Call τ)} {p : Nat × Call τ}
    (mem : p ∈ placed base calls) : base ≤ p.1 ∧ p.1 + p.2.width ≤ base + extent calls := by
  induction calls generalizing base with
  | nil => cases mem
  | cons call rest ih =>
    simp only [extent, List.map_cons, List.sum_cons]
    rcases List.mem_cons.mp mem with rfl | later
    · dsimp only
      omega
    · obtain ⟨le, within⟩ := ih later
      simp only [extent] at within
      omega

/-- The voices that were asked of one oscillator. -/
def voicesOf (name id : String) (placed : List (Nat × Call τ)) : List (Nat × Call τ) :=
  placed.filter fun p => p.2.isFor name id

def nodesOf (p : Nat × Call τ) : List NodeKey :=
  voiceNodes p.1 p.2.sheet.branches.length

def generatorsOf (p : Nat × Call τ) : List NodeKey :=
  voiceGenerators p.1 p.2.sheet.branches.length

theorem voicesOf_append (name id : String) (placed others : List (Nat × Call τ)) :
    voicesOf name id (placed ++ others) = voicesOf name id placed ++ voicesOf name id others :=
  List.filter_append ..

end Call

/-- The nodes from a key on are those of a voice. -/
def Graph.Shows [Fourier] (graph : Graph τ) (rate : Float32) (base : Nat) (sheet : Sheet τ) :
    Prop :=
  ∀ i component, sheet.components[i]? = some component →
    ∃ node, graph.node? (base + i) = some node ∧ component.Shown rate node

namespace Racks

/-- The connections of a voice. -/
def wires (racks : Racks) (p : Nat × Call τ) : List Connection :=
  voiceWires (racks.output p.2.name p.2.id) (racks.control p.2.name p.2.id) p.1
    p.2.sheet.branches.length

end Racks

namespace Racks

variable [Fourier]

/-- The calls were played: their voices were added, and nothing else was changed. -/
structure Played (racks : Racks) (graph : Graph τ) (calls : List (Call τ)) (racks' : Racks)
    (after : Graph τ) : Prop where
  sound : racks'.Sound after
  clock : after.clock = graph.clock
  size : after.nodes.size = graph.nodes.size + Call.extent calls
  connections : after.connections =
    graph.connections ++ (Call.placed graph.nodes.size calls).flatMap racks.wires
  old : ∀ key, key < graph.nodes.size → after.node? key = graph.node? key
  new : ∀ p ∈ Call.placed graph.nodes.size calls, after.Shows graph.rate p.1 p.2.sheet
  rings : ∀ name id ring, racks.ring? name id = some ring →
    ∃ ring', racks'.ring? name id = some ring' ∧ ring'.bare = ring.bare ∧
      ring'.oscillator.nodes = ring.oscillator.nodes ++
        (Call.voicesOf name id (Call.placed graph.nodes.size calls)).flatMap Call.nodesOf ∧
      ring'.oscillator.generators = ring.oscillator.generators ++
        (Call.voicesOf name id (Call.placed graph.nodes.size calls)).flatMap Call.generatorsOf
  absent : ∀ name id, racks.ring? name id = none → racks'.ring? name id = none
  stages : ∀ name id, racks'.stage? name id = racks.stage? name id
  fittings : ∀ name, (racks' name).map Rack.fittings = (racks name).map Rack.fittings
  /-- Whatever was kept of waves has been asked for by the voices. -/
  memories : ∀ name id ring ring', racks.ring? name id = some ring →
    racks'.ring? name id = some ring' → ring'.memory =
      if calls.any (·.isFor name id) then ring.recalled graph.rate else ring.memory
  scored : ∀ p ∈ Call.placed graph.nodes.size calls, ∀ ring,
    racks.ring? p.2.name p.2.id = some ring → ∀ i < p.2.width,
      (after.node? (p.1 + i)).map Node.unnumbered =
        (ring.score graph.rate p.2.sheet.frequency p.2.sheet.starts p.2.sheet.stops)[i]?

variable {racks racks' racks'' : Racks} {graph middle after : Graph τ}
  {calls others : List (Call τ)}

theorem Played.refl (sound : racks.Sound graph) : Played racks graph [] racks graph where
  sound := sound
  clock := rfl
  size := rfl
  connections := by simp [Call.placed]
  old := fun _ _ => rfl
  new := by simp [Call.placed]
  rings := fun _ _ ring found =>
    ⟨ring, found, rfl, by simp [Call.voicesOf, Call.placed], by simp [Call.voicesOf, Call.placed]⟩
  absent := fun _ _ none_found => none_found
  stages := fun _ _ => rfl
  fittings := fun _ => rfl
  memories := fun _ _ ring ring' found found' => by
    rw [found] at found'
    cases found'
    rfl
  scored := by simp [Call.placed]

theorem Played.rate (played : Played racks graph calls racks' after) : after.rate = graph.rate := by
  simp only [Graph.rate, played.clock]

theorem Played.now [TimeAxis τ] (played : Played racks graph calls racks' after) :
    (after.now : τ) = graph.now := by
  simp only [Graph.now, played.clock]

omit [Fourier] in
/-- Where rings keep their settings, voices are driven by the same nodes and end in the same ones. -/
theorem ends_congr (rings : ∀ name id ring, racks.ring? name id = some ring →
      ∃ ring', racks'.ring? name id = some ring' ∧ ring'.bare = ring.bare)
    (absent : ∀ name id, racks.ring? name id = none → racks'.ring? name id = none) :
    racks'.output = racks.output ∧ racks'.control = racks.control := by
  have both (name id : String) : racks'.output name id = racks.output name id ∧
      racks'.control name id = racks.control name id := by
    simp only [Racks.output, Racks.control]
    cases found : racks.ring? name id with
    | none =>
      rw [absent name id found]
      exact ⟨rfl, rfl⟩
    | some ring =>
      obtain ⟨ring', found', bare⟩ := rings name id ring found
      rw [found']
      exact ⟨congrArg (·.oscillator.output) bare, congrArg (·.oscillator.control) bare⟩
  constructor
  · funext name id
    exact (both name id).1
  · funext name id
    exact (both name id).2

omit [Fourier] in
/-- Where rings keep their settings, voices are wired in the same way. -/
theorem wires_congr (rings : ∀ name id ring, racks.ring? name id = some ring →
      ∃ ring', racks'.ring? name id = some ring' ∧ ring'.bare = ring.bare)
    (absent : ∀ name id, racks.ring? name id = none → racks'.ring? name id = none) :
    (racks'.wires : Nat × Call τ → _) = racks.wires := by
  obtain ⟨output, control⟩ := ends_congr rings absent
  funext p
  rw [Racks.wires, Racks.wires, output, control]

theorem Played.wires (played : Played racks graph calls racks' after) :
    (racks'.wires : Nat × Call τ → _) = racks.wires := by
  refine wires_congr (fun name id ring found => ?_) played.absent
  obtain ⟨ring', found', bare, -⟩ := played.rings name id ring found
  exact ⟨ring', found', bare⟩

theorem Played.trans (first : Played racks graph calls racks' middle)
    (second : Played racks' middle others racks'' after) :
    Played racks graph (calls ++ others) racks'' after := by
  have placed : Call.placed graph.nodes.size (calls ++ others) =
      Call.placed graph.nodes.size calls ++ Call.placed middle.nodes.size others := by
    rw [Call.placed_append, first.size]
  constructor
  case sound => exact second.sound
  case clock => exact second.clock.trans first.clock
  case size =>
    rw [second.size, first.size, Call.extent_append]
    omega
  case connections =>
    rw [second.connections, first.connections, placed, first.wires, List.flatMap_append,
      List.append_assoc]
  case old =>
    intro key lt
    have lt' : key < middle.nodes.size := Nat.lt_of_lt_of_le lt (by rw [first.size]; omega)
    rw [second.old key lt', first.old key lt]
  case new =>
    intro p mem
    rw [placed, List.mem_append] at mem
    rcases mem with mem | mem
    · intro i component here
      obtain ⟨node, found, shown⟩ := first.new p mem i component here
      refine ⟨node, ?_, shown⟩
      rw [second.old _ (Graph.lt_size_of_node? found), found]
    · exact first.rate ▸ second.new p mem
  case rings =>
    intro name id ring found
    obtain ⟨ring', found', bare, nodes, generators⟩ := first.rings name id ring found
    obtain ⟨last, found'', bare', nodes', generators'⟩ := second.rings name id ring' found'
    refine ⟨last, found'', bare'.trans bare, ?_, ?_⟩
    · rw [nodes', nodes, placed, Call.voicesOf_append, List.flatMap_append, List.append_assoc]
    · rw [generators', generators, placed, Call.voicesOf_append, List.flatMap_append,
        List.append_assoc]
  case absent => exact fun name id none_found => second.absent _ _ (first.absent _ _ none_found)
  case stages => exact fun name id => (second.stages name id).trans (first.stages name id)
  case fittings => exact fun name => (second.fittings name).trans (first.fittings name)
  case memories =>
    intro name id ring last found found_last
    obtain ⟨ring', found', bare, -⟩ := first.rings name id ring found
    rw [second.memories name id ring' last found' found_last, List.any_append, first.rate]
    exact RingOscillator.memory_twice bare (first.memories name id ring ring' found found') _
  case scored =>
    intro p mem ring found i lt
    rw [placed, List.mem_append] at mem
    rcases mem with mem | mem
    · rw [second.old, first.scored p mem ring found i lt]
      have bound := (Call.bounds_of_mem_placed mem).2
      rw [first.size]
      omega
    · obtain ⟨ring', found', bare, -⟩ := first.rings _ _ ring found
      rw [second.scored p mem ring' found' i lt, first.rate,
        RingOscillator.score_twice bare (first.memories _ _ ring ring' found found')]

end Racks

/-! ### Notes of one instrument -/

/-- What a voice is to be hangs on the setting of its ring alone. -/
theorem RingOscillator.sheet_congr [TimeAxis τ] {ring other : RingOscillator}
    (partials : ring.oscillator.partials = other.oscillator.partials)
    (follows : ring.oscillator.followsNote = other.oscillator.followsNote)
    (signals : ring.signals = other.signals) (weights : ring.weights = other.weights)
    (now position : τ) (note : Note τ) :
    ring.sheet now position note = other.sheet now position note := by
  simp only [sheet, branches, Oscillator.pitch, partials, follows, signals, weights]

theorem RingOscillator.sheet_of_bare [TimeAxis τ] {ring other : RingOscillator}
    (same : ring.bare = other.bare) (now position : τ) (note : Note τ) :
    ring.sheet now position note = other.sheet now position note :=
  sheet_congr (congrArg (·.oscillator.partials) same) (congrArg (·.oscillator.followsNote) same)
    (congrArg (·.signals) same) (congrArg (·.weights) same) now position note

/-- The calls of a note: one for each oscillator that takes part. -/
def Rack.calls [TimeAxis τ] (rack : Rack) (name : String) (now position : τ) (ids : List String)
    (note : Note τ) : List (Call τ) :=
  ids.flatMap fun id => ((rack.oscillators.find? id).map fun ring =>
    (⟨name, id, ring.sheet now position note⟩ : Call τ)).toList

namespace Racks

section Scheduling

variable [TimeAxis τ] [Fourier] {racks : Racks} {name : String} {rack rack' : Rack}
  {graph after : Graph τ}

/-- To play voices changes none of those that are still to come. -/
theorem Played.calls {calls : List (Call τ)}
    (played : Played (racks.set name rack) graph calls (racks.set name rack') after)
    (now position : τ) (ids : List String) (note : Note τ) :
    rack'.calls name now position ids note = rack.calls name now position ids note := by
  simp only [Rack.calls]
  congr 1
  funext id
  cases found : rack.oscillators.find? id with
  | none =>
    have none_found := played.absent name id (ring?_set_self.trans found)
    rw [ring?_set_self] at none_found
    rw [none_found]
  | some ring =>
    obtain ⟨ring', found', bare, -⟩ := played.rings name id ring (ring?_set_self.trans found)
    rw [ring?_set_self] at found'
    rw [found', Option.map_some, Option.map_some, RingOscillator.sheet_of_bare bare]

/-- A voice of one ring. -/
theorem Sound.playRing (sound : (racks.set name rack).Sound graph) {id : String}
    {ring : RingOscillator} (found : rack.oscillators.find? id = some ring)
    (fits : binCount graph.rate ≤ Partials.maxBins) (note : Note τ) (position : τ) :
    ∃ scheduled after, ring.schedule graph note position =
        .ok (note.delays position, scheduled, after) ∧
      Played (racks.set name rack) graph [⟨name, id, ring.sheet graph.now position note⟩]
        (racks.set name (rack.putOscillator id scheduled)) after := by
  obtain ⟨scheduled, after, nodes, schedule, sound', shown, grown, bare, counted, generators, scored,
    recalled⟩ := sound.scheduleRing found fits note position
  have found' : (racks.set name rack).ring? name id = some ring := ring?_set_self.trans found
  have length : nodes.length = 1 + 3 * ring.branches.length :=
    shown.length_eq.symm.trans (Sheet.length_components _)
  have here : Call.voicesOf name id (Call.placed graph.nodes.size
      [⟨name, id, ring.sheet graph.now position note⟩]) =
        [(graph.nodes.size, ⟨name, id, ring.sheet graph.now position note⟩)] := by
    simp [Call.voicesOf, Call.placed, Call.isFor]
  have apart {place other : String} (differ : ¬ (place = name ∧ other = id)) :
      ¬ (name = place ∧ id = other) := by
    rintro ⟨rfl, rfl⟩
    exact differ ⟨rfl, rfl⟩
  refine ⟨scheduled, after, schedule, ?_⟩
  constructor
  case sound => exact sound'
  case clock => exact grown.clock
  case size =>
    rw [grown.size, length]
    rfl
  case connections =>
    rw [grown.connections]
    simp only [Call.placed, List.flatMap_cons, List.flatMap_nil, List.append_nil, Racks.wires,
      Racks.output, Racks.control, found', Option.elim]
    rfl
  case old => exact fun key lt => grown.node?_of_lt lt
  case new =>
    intro p mem
    rw [Call.placed, Call.placed, List.mem_singleton] at mem
    subst mem
    intro i component listed
    obtain ⟨within, same⟩ := List.getElem?_eq_some_iff.mp listed
    have within' : i < nodes.length := shown.length_eq ▸ within
    refine ⟨nodes[i], ?_, ?_⟩
    · rw [grown.node?_new, List.getElem?_eq_getElem within']
    · have fits := (List.forall₂_iff_get.mp shown).2 i within within'
      simp only [List.get_eq_getElem] at fits
      exact same ▸ fits
  case rings =>
    intro place other old found_old
    rw [ring?_putOscillator]
    by_cases same : place = name ∧ other = id
    · obtain ⟨rfl, rfl⟩ := same
      rw [found'] at found_old
      cases found_old
      refine ⟨scheduled, if_pos ⟨rfl, rfl⟩, bare, ?_, ?_⟩
      · rw [counted, here]
        simp [Call.nodesOf, RingOscillator.sheet]
      · rw [generators, here]
        simp [Call.generatorsOf, RingOscillator.sheet]
    · refine ⟨old, (if_neg same).trans found_old, rfl, ?_, ?_⟩ <;>
        simp [Call.voicesOf, Call.placed, Call.isFor, apart same]
  case absent =>
    intro place other none_found
    rw [ring?_putOscillator, if_neg]
    · exact none_found
    · rintro ⟨rfl, rfl⟩
      rw [found'] at none_found
      cases none_found
  case stages => exact fun place other => stage?_putOscillator id place other scheduled
  case fittings =>
    intro place
    simp only [Racks.set]
    split <;> rfl
  case memories =>
    intro place other old new found_old found_new
    rw [ring?_putOscillator] at found_new
    by_cases same : place = name ∧ other = id
    · obtain ⟨rfl, rfl⟩ := same
      rw [found'] at found_old
      cases found_old
      rw [if_pos ⟨rfl, rfl⟩] at found_new
      cases found_new
      simpa [Call.isFor] using recalled
    · rw [if_neg same, found_old] at found_new
      cases found_new
      simp [Call.isFor, apart same]
  case scored =>
    intro p mem old found_old i _
    rw [Call.placed, Call.placed, List.mem_singleton] at mem
    subst mem
    rw [found'] at found_old
    cases found_old
    rw [grown.node?_new, ← List.getElem?_map, scored]
    rfl

/-- A note on some of the oscillators of a rack. -/
theorem Sound.playIds (sound : (racks.set name rack).Sound graph)
    (fits : binCount graph.rate ≤ Partials.maxBins) (note : Note τ) (position : τ)
    (ids : List String) :
    ∃ rack' after, Attempt.visit (fun ((rack, graph) : Rack × Graph τ) id =>
        match rack.oscillators.find? id with
        | none => .done (rack, graph)
        | some ring =>
          match ring.schedule graph note position with
          | .ok (_, ring, graph) => .done (rack.putOscillator id ring, graph)
          | .error fault => .stopped (rack, graph) fault) (rack, graph) ids =
            .done (rack', after) ∧
      Played (racks.set name rack) graph (rack.calls name graph.now position ids note)
        (racks.set name rack') after ∧ rack'.active = rack.active := by
  induction ids generalizing rack graph with
  | nil => exact ⟨rack, graph, rfl, .refl sound, rfl⟩
  | cons id rest ih =>
    cases found : rack.oscillators.find? id with
    | none =>
      obtain ⟨rack', after, run, played, active⟩ := ih sound fits
      refine ⟨rack', after, ?_, ?_, active⟩
      · simp only [Attempt.visit_cons, found, Attempt.done_andThen, run]
      · simpa only [Rack.calls, List.flatMap_cons, found, Option.map_none, Option.toList_none,
          List.nil_append] using played
    | some ring =>
      obtain ⟨scheduled, middle, schedule, first⟩ := sound.playRing found fits note position
      obtain ⟨rack', after, run, second, active⟩ := ih first.sound (first.rate ▸ fits)
      rw [first.now, first.calls] at second
      refine ⟨rack', after, ?_, ?_, active⟩
      · simp only [Attempt.visit_cons, found, schedule, Attempt.done_andThen, run]
      · have both := first.trans second
        simpa only [Rack.calls, List.flatMap_cons, found, Option.map_some,
          Option.toList_some] using both

/-- Notes on a rack, one after another. -/
theorem Sound.playNotes (sound : (racks.set name rack).Sound graph)
    (fits : binCount graph.rate ≤ Partials.maxBins) (notes : List (Note τ)) (position : τ) :
    ∃ rack' after, Attempt.visit (fun ((rack, graph) : Rack × Graph τ) note =>
        rack.schedule graph note position) (rack, graph) notes = .done (rack', after) ∧
      Played (racks.set name rack) graph
        (notes.flatMap (rack.calls name graph.now position rack.active))
        (racks.set name rack') after ∧ rack'.active = rack.active := by
  induction notes generalizing rack graph with
  | nil => exact ⟨rack, graph, rfl, .refl sound, rfl⟩
  | cons note rest ih =>
    obtain ⟨next, middle, schedule, first, kept⟩ :=
      sound.playIds fits note position rack.active
    obtain ⟨rack', after, run, second, active⟩ := ih first.sound (first.rate ▸ fits)
    have same : next.calls name middle.now position next.active =
        rack.calls name graph.now position rack.active := by
      funext other
      rw [first.now, kept, first.calls]
    rw [same] at second
    have schedule : rack.schedule graph note position = .done (next, middle) := schedule
    refine ⟨rack', after, ?_, ?_, active.trans kept⟩
    · rw [Attempt.visit_cons]
      simp only [schedule, Attempt.done_andThen, run]
    · rw [List.flatMap_cons]
      exact first.trans second

/-! ### Where no wave can be made -/

omit [TimeAxis τ] in
/-- Where buffers are too large, a ring has neither waves nor voices. -/
theorem Sound.idle (sound : racks.Sound graph) (large : Partials.maxBins < binCount graph.rate)
    {place id : String} {ring : RingOscillator} (found : racks.ring? place id = some ring) :
    ring.oscillator.memo = none ∧ ring.oscillator.nodes = [] ∧
      ring.oscillator.generators = [] := by
  have ring_sound := sound.rings place id ring found
  have nodes : ring.oscillator.nodes = [] := by
    by_cases empty : ring.oscillator.nodes = []
    · exact empty
    · exact absurd (ring_sound.voiced empty) (Nat.not_le.mpr large)
  refine ⟨?_, nodes, List.sublist_nil.mp (nodes ▸ ring_sound.generators)⟩
  cases memo : ring.oscillator.memo with
  | none => rfl
  | some made =>
    obtain ⟨-, was_made⟩ := ring_sound.kept made (.inl memo)
    simp only [Partials.waveAt, Partials.place_eq_error large, bind, Except.bind] at was_made
    cases was_made

/-- The fault that calls end with. -/
def faultOf (rate : Float32) (calls : List (Call τ)) : Option Fault :=
  if binCount rate ≤ Partials.maxBins ∨ calls = [] then none
  else some (.bufferTooLarge (binCount rate))

/-- Where buffers are too large, the first call fails and leaves everything as it was. -/
theorem Sound.refuseIds (sound : (racks.set name rack).Sound graph)
    (large : Partials.maxBins < binCount graph.rate) (note : Note τ) (position : τ)
    (ids : List String) :
    Attempt.visit (fun ((rack, graph) : Rack × Graph τ) id =>
        match rack.oscillators.find? id with
        | none => .done (rack, graph)
        | some ring =>
          match ring.schedule graph note position with
          | .ok (_, ring, graph) => .done (rack.putOscillator id ring, graph)
          | .error fault => .stopped (rack, graph) fault) (rack, graph) ids =
      ⟨(rack, graph), faultOf graph.rate (rack.calls name graph.now position ids note)⟩ := by
  induction ids with
  | nil => simp [Rack.calls, faultOf, Attempt.done]
  | cons id rest ih =>
    cases found : rack.oscillators.find? id with
    | none =>
      simp only [Attempt.visit_cons, found, Attempt.done_andThen, ih, Rack.calls,
        List.flatMap_cons, Option.map_none, Option.toList_none, List.nil_append]
    | some ring =>
      obtain ⟨no_memo, -⟩ := sound.idle large (ring?_set_self.trans found)
      have refused := RingOscillator.schedule_eq_error large no_memo note position
      simp only [Attempt.visit_cons, found, refused, Attempt.stopped_andThen, Rack.calls,
        List.flatMap_cons, Option.map_some, Option.toList_some, faultOf]
      rw [if_neg]
      · rfl
      · simp [Nat.not_le.mpr large]

theorem Sound.refuseNotes (sound : (racks.set name rack).Sound graph)
    (large : Partials.maxBins < binCount graph.rate) (notes : List (Note τ)) (position : τ) :
    Attempt.visit (fun ((rack, graph) : Rack × Graph τ) note =>
        rack.schedule graph note position) (rack, graph) notes =
      ⟨(rack, graph), faultOf graph.rate
        (notes.flatMap (rack.calls name graph.now position rack.active))⟩ := by
  induction notes with
  | nil => simp [faultOf, Attempt.done]
  | cons note rest ih =>
    have first : rack.schedule graph note position = ⟨(rack, graph), faultOf graph.rate
        (rack.calls name graph.now position rack.active note)⟩ :=
      sound.refuseIds large note position rack.active
    rw [Attempt.visit_cons, List.flatMap_cons]
    show (rack.schedule graph note position).andThen _ = _
    rw [first]
    by_cases none_asked : rack.calls name graph.now position rack.active note = []
    · simp only [none_asked, faultOf, or_true, if_true, List.nil_append]
      exact ih
    · simp only [faultOf, none_asked, List.append_eq_nil_iff, false_and, or_false,
        Nat.not_le.mpr large, if_false]
      rfl

omit [TimeAxis τ] in
theorem Sound.free_eq_self (sound : (racks.set name rack).Sound graph)
    (large : Partials.maxBins < binCount graph.rate) : rack.free graph = (rack, graph) :=
  rack.free_eq_self (fun _ _ found => (sound.idle large (ring?_set_self.trans found)).2) graph

end Scheduling

end Racks

end Patchbay
