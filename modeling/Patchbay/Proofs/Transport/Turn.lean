import Patchbay.Proofs.Transport.Score

/-!
# A pass over all instruments

The transport schedules one instrument after another, each in place of the voices that it had.
The old voices of one instrument have nothing in common with the new ones of another, so that a pass
takes out all old voices and adds all new ones, in the order of the instruments.
-/
namespace Patchbay

variable {τ : Type} [Fourier]

namespace Racks

/-- The nodes of the voices of the named instruments. -/
def voices (racks : Racks) (names : List String) : List NodeKey :=
  names.flatMap fun name => (racks name).elim [] Rack.tracked

/-- Instruments gave up their voices and played calls in place of them. -/
structure Turned (racks : Racks) (graph : Graph τ) (names : List String) (calls : List (Call τ))
    (racks' : Racks) (after : Graph τ) : Prop where
  sound : racks'.Sound after
  clock : after.clock = graph.clock
  size : after.nodes.size = graph.nodes.size + Call.extent calls
  connections : after.connections = graph.connections.filter
      (fun c => c.source ∉ racks.voices names ∧ c.target ∉ racks.voices names) ++
    (Call.placed graph.nodes.size calls).flatMap racks.wires
  old : ∀ key, key < graph.nodes.size →
    after.node? key = if key ∈ racks.voices names then none else graph.node? key
  new : ∀ p ∈ Call.placed graph.nodes.size calls, after.Shows graph.rate p.1 p.2.sheet
  rings : ∀ name id ring, racks.ring? name id = some ring →
    ∃ ring', racks'.ring? name id = some ring' ∧ ring'.bare = ring.bare ∧
      ring'.oscillator.nodes = (if name ∈ names then [] else ring.oscillator.nodes) ++
        (Call.voicesOf name id (Call.placed graph.nodes.size calls)).flatMap Call.nodesOf ∧
      ring'.oscillator.generators = (if name ∈ names then [] else ring.oscillator.generators) ++
        (Call.voicesOf name id (Call.placed graph.nodes.size calls)).flatMap Call.generatorsOf
  absent : ∀ name id, racks.ring? name id = none → racks'.ring? name id = none
  stages : ∀ name id, racks'.stage? name id = racks.stage? name id
  fittings : ∀ name, (racks' name).map Rack.fittings = (racks name).map Rack.fittings
  memories : ∀ name id ring ring', racks.ring? name id = some ring →
    racks'.ring? name id = some ring' → ring'.memory =
      if calls.any (·.isFor name id) then ring.recalled graph.rate else ring.memory
  scored : ∀ p ∈ Call.placed graph.nodes.size calls, ∀ ring,
    racks.ring? p.2.name p.2.id = some ring → ∀ i < p.2.width,
      (after.node? (p.1 + i)).map Node.unnumbered =
        (ring.score graph.rate p.2.sheet.frequency p.2.sheet.starts p.2.sheet.stops)[i]?
  others : ∀ name, name ∉ names → racks' name = racks name
  named : ∀ call ∈ calls, call.name ∈ names

variable {racks racks' racks'' : Racks} {graph middle after : Graph τ} {names more : List String}
  {calls others : List (Call τ)}

omit [Fourier] in
theorem mem_voices {key : NodeKey} : key ∈ racks.voices names ↔
    ∃ name ∈ names, ∃ id ring, racks.ring? name id = some ring ∧ key ∈ ring.oscillator.nodes := by
  simp only [voices, List.mem_flatMap]
  refine exists_congr fun name => and_congr_right fun _ => ?_
  cases found : racks name with
  | none => simp [ring?, found]
  | some rack => simp [ring?, found, Rack.mem_tracked]

theorem Sound.voices_lt (sound : racks.Sound graph) {key : NodeKey}
    (mem : key ∈ racks.voices names) : key < graph.nodes.size := by
  obtain ⟨name, -, id, ring, found, counted⟩ := mem_voices.mp mem
  exact sound.ledger.lt_size ((mem_held_ring found).mpr
    (RingOscillator.mem_keys_of_counted counted))

theorem Sound.destination_not_voiced (sound : racks.Sound graph) :
    Graph.destination ∉ racks.voices names := by
  intro mem
  obtain ⟨name, -, id, ring, found, counted⟩ := mem_voices.mp mem
  exact sound.ledger.inner _ ((mem_held_ring found).mpr
    (RingOscillator.mem_keys_of_counted counted))

/-- Old voices lie below the new ones. -/
theorem Sound.not_voiced_of_placed (sound : racks.Sound graph) {p : Nat × Call τ}
    (mem : p ∈ Call.placed graph.nodes.size calls) {key : NodeKey} (le : p.1 ≤ key) :
    key ∉ racks.voices names := by
  intro old
  have lt := sound.voices_lt old
  have first := (Call.bounds_of_mem_placed mem).1
  simp only [NodeKey] at *
  omega

/-- Old voices have no end in common with the wiring of the new ones. -/
theorem Sound.wires_apart (sound : racks.Sound graph) {p : Nat × Call τ}
    (mem : p ∈ Call.placed graph.nodes.size calls) {c : Connection} (wired : c ∈ racks.wires p) :
    c.source ∉ racks.voices names ∧ c.target ∉ racks.voices names := by
  have new_apart {key : NodeKey} (new : key ∈ voiceNodes p.1 p.2.sheet.branches.length) :
      key ∉ racks.voices names :=
    sound.not_voiced_of_placed mem (mem_voiceNodes.mp new).1
  have output_apart : racks.output p.2.name p.2.id ∉ racks.voices names ∧
      racks.control p.2.name p.2.id ∉ racks.voices names := by
    simp only [output, control]
    cases found : racks.ring? p.2.name p.2.id with
    | none => exact ⟨sound.destination_not_voiced, sound.destination_not_voiced⟩
    | some ring =>
      refine ⟨fun old => ?_, fun old => ?_⟩
      · obtain ⟨name, -, id, ring', found', counted⟩ := mem_voices.mp old
        exact (sound.output_not_counted found found').1 counted
      · obtain ⟨name, -, id, ring', found', counted⟩ := mem_voices.mp old
        exact (sound.output_not_counted found found').2 counted
  obtain ⟨source, target⟩ := ends_of_mem_voiceWires wired
  refine ⟨?_, ?_⟩
  · rcases source with same | new
    · exact same ▸ output_apart.2
    · exact new_apart new
  · rcases target with new | ⟨same, -⟩
    · exact new_apart new
    · exact same ▸ output_apart.1

theorem Turned.rate (turned : Turned racks graph names calls racks' after) :
    after.rate = graph.rate := by
  simp only [Graph.rate, turned.clock]

theorem Turned.wires (turned : Turned racks graph names calls racks' after) :
    (racks'.wires : Nat × Call τ → _) = racks.wires := by
  refine wires_congr (fun name id ring found => ?_) turned.absent
  obtain ⟨ring', found', bare, -⟩ := turned.rings name id ring found
  exact ⟨ring', found', bare⟩

/-- The voices of instruments that were passed over are the old ones. -/
theorem Turned.voices (turned : Turned racks graph names calls racks' after)
    (apart : ∀ name ∈ more, name ∉ names) : racks'.voices more = racks.voices more := by
  simp only [Racks.voices]
  refine List.flatMap_congr fun name mem => ?_
  rw [turned.others name (apart name mem)]

/-- Other instruments are asked for nothing. -/
theorem Turned.voicesOf_eq_nil (turned : Turned racks graph names calls racks' after)
    {name : String} (id : String) (outside : name ∉ names) :
    Call.voicesOf name id (Call.placed graph.nodes.size calls) = [] := by
  rw [Call.voicesOf, List.filter_eq_nil_iff]
  intro p mem
  simp only [Call.isFor, decide_eq_true_eq, not_and]
  intro same
  exact absurd (same ▸ turned.named p.2 (Call.mem_of_mem_placed mem)) outside

theorem Turned.trans (sound : racks.Sound graph)
    (first : Turned racks graph names calls racks' middle)
    (second : Turned racks' middle more others racks'' after)
    (apart : ∀ name ∈ more, name ∉ names) :
    Turned racks graph (names ++ more) (calls ++ others) racks'' after := by
  have placed : Call.placed graph.nodes.size (calls ++ others) =
      Call.placed graph.nodes.size calls ++ Call.placed middle.nodes.size others := by
    rw [Call.placed_append, first.size]
  have voices : racks.voices (names ++ more) = racks.voices names ++ racks.voices more :=
    List.flatMap_append
  have same_voices := first.voices apart
  constructor
  case sound => exact second.sound
  case clock => exact second.clock.trans first.clock
  case size =>
    rw [second.size, first.size, Call.extent_append]
    omega
  case connections =>
    have kept : ((Call.placed graph.nodes.size calls).flatMap racks.wires).filter
        (fun c => c.source ∉ racks.voices more ∧ c.target ∉ racks.voices more) =
          (Call.placed graph.nodes.size calls).flatMap racks.wires := by
      rw [List.filter_eq_self]
      intro c mem
      obtain ⟨p, mem, wired⟩ := List.mem_flatMap.mp mem
      exact decide_eq_true (sound.wires_apart mem wired)
    rw [second.connections, first.connections, placed, first.wires, same_voices, voices,
      List.filter_append, kept, List.flatMap_append, List.filter_filter, List.append_assoc]
    congr 1
    refine List.filter_congr fun c _ => ?_
    rw [Bool.eq_iff_iff]
    simp only [List.mem_append, Bool.and_eq_true, decide_eq_true_eq]
    tauto
  case old =>
    intro key lt
    have lt' : key < middle.nodes.size := Nat.lt_of_lt_of_le lt (by rw [first.size]; omega)
    rw [second.old key lt', first.old key lt, same_voices, voices]
    by_cases here : key ∈ racks.voices names <;> by_cases there : key ∈ racks.voices more <;>
      simp [here, there]
  case new =>
    intro p mem
    rw [placed, List.mem_append] at mem
    rcases mem with mem | mem
    · intro i component here
      obtain ⟨node, found, shown⟩ := first.new p mem i component here
      refine ⟨node, ?_, shown⟩
      rw [second.old _ (Graph.lt_size_of_node? found), same_voices,
        if_neg (sound.not_voiced_of_placed mem (Nat.le_add_right _ _)), found]
    · exact first.rate ▸ second.new p mem
  case rings =>
    intro name id ring found
    obtain ⟨ring', found', bare, nodes, generators⟩ := first.rings name id ring found
    obtain ⟨last, found'', bare', nodes', generators'⟩ := second.rings name id ring' found'
    have no_call (later : name ∈ more) :
        Call.voicesOf name id (Call.placed graph.nodes.size calls) = [] :=
      first.voicesOf_eq_nil id fun listed => apart name later listed
    refine ⟨last, found'', bare'.trans bare, ?_, ?_⟩
    · rw [nodes', nodes, placed, Call.voicesOf_append, List.flatMap_append]
      by_cases later : name ∈ more
      · simp [later, no_call later]
      · simp [later]
    · rw [generators', generators, placed, Call.voicesOf_append, List.flatMap_append]
      by_cases later : name ∈ more
      · simp [later, no_call later]
      · simp [later]
  case absent => exact fun name id none_found => second.absent _ _ (first.absent _ _ none_found)
  case stages => exact fun name id => (second.stages name id).trans (first.stages name id)
  case fittings => exact fun name => (second.fittings name).trans (first.fittings name)
  case memories =>
    intro name id ring last found found_last
    obtain ⟨ring', found', bare, -⟩ := first.rings name id ring found
    rw [second.memories name id ring' last found' found_last, List.any_append, first.rate]
    exact RingOscillator.memory_twice bare (first.memories name id ring ring' found found') _
  case scored =>
    intro p mem ring found i lt
    rw [placed, List.mem_append] at mem
    rcases mem with mem | mem
    · have within := (Call.bounds_of_mem_placed mem).2
      rw [second.old, same_voices, if_neg (sound.not_voiced_of_placed mem (Nat.le_add_right _ _)),
        first.scored p mem ring found i lt]
      rw [first.size]
      omega
    · obtain ⟨ring', found', bare, -⟩ := first.rings _ _ ring found
      rw [second.scored p mem ring' found' i lt, first.rate,
        RingOscillator.score_twice bare (first.memories _ _ ring ring' found found')]
  case others =>
    intro name outside
    rw [List.mem_append, not_or] at outside
    rw [second.others name outside.2, first.others name outside.1]
  case named =>
    intro call mem
    rcases List.mem_append.mp mem with mem | mem
    · exact List.mem_append_left _ (first.named call mem)
    · exact List.mem_append_right _ (second.named call mem)

/-- Where there are no voices to give up, a pass without calls changes nothing. -/
theorem Turned.idle (sound : racks.Sound graph) (names : List String)
    (empty : ∀ name ∈ names, ∀ id ring, racks.ring? name id = some ring →
      ring.oscillator.nodes = [] ∧ ring.oscillator.generators = []) :
    Turned racks graph names [] racks graph := by
  have none_counted : racks.voices names = [] := by
    rw [List.eq_nil_iff_forall_not_mem]
    intro key mem
    obtain ⟨name, listed, id, ring, found, counted⟩ := mem_voices.mp mem
    rw [(empty name listed id ring found).1] at counted
    cases counted
  constructor
  case sound => exact sound
  case clock => rfl
  case size => rfl
  case connections => simp [none_counted, Call.placed]
  case old => exact fun key _ => by rw [none_counted, if_neg List.not_mem_nil]
  case new => simp [Call.placed]
  case rings =>
    intro name id ring found
    refine ⟨ring, found, rfl, ?_, ?_⟩
    · by_cases here : name ∈ names
      · simp [Call.placed, Call.voicesOf, here, (empty name here id ring found).1]
      · simp [Call.placed, Call.voicesOf, here]
    · by_cases here : name ∈ names
      · simp [Call.placed, Call.voicesOf, here, (empty name here id ring found).2]
      · simp [Call.placed, Call.voicesOf, here]
  case absent => exact fun _ _ none_found => none_found
  case stages => exact fun _ _ => rfl
  case fittings => exact fun _ => rfl
  case memories =>
    intro name id ring ring' found found'
    rw [found] at found'
    cases found'
    rfl
  case scored => simp [Call.placed]
  case others => exact fun _ _ => rfl
  case named => simp

theorem Turned.reported (turned : Turned racks graph names calls racks' middle)
    (h : middle.Reported after) : Turned racks graph names calls racks' after := by
  have sound := turned.sound.reported h
  obtain ⟨_, _, rfl⟩ := h
  exact ⟨sound, turned.clock, turned.size, turned.connections, turned.old, turned.new,
    turned.rings, turned.absent, turned.stages, turned.fittings, turned.memories, turned.scored,
    turned.others, turned.named⟩

/-- One instrument gives up its voices and plays calls. -/
theorem Sound.turn {name : String} {rack freed rack' : Rack}
    (sound : (racks.set name rack).Sound graph) (free : rack.free graph = (freed, middle))
    (played : Played (racks.set name freed) middle calls (racks.set name rack') after)
    (named : ∀ call ∈ calls, call.name = name) :
    Turned (racks.set name rack) graph [name] calls (racks.set name rack') after := by
  obtain ⟨freed_graph, is_free, -, -, clock, size, connections, nodes⟩ := sound.free
  have is_freed : freed = (rack.free graph).1 := by rw [free]
  have same : middle = freed_graph := by
    rw [free] at is_free
    exact congrArg Prod.snd is_free
  subst is_freed same
  have voices : (racks.set name rack).voices [name] = rack.tracked := by simp [Racks.voices]
  have freed_ring {place id : String} {ring : RingOscillator}
      (found : (racks.set name rack).ring? place id = some ring) :
      (racks.set name (rack.free graph).1).ring? place id =
        some (if place = name then ring.freed else ring) := by
    rw [ring?_set_free, found, Option.map_some]
  have absent {place id : String} (none_found : (racks.set name rack).ring? place id = none) :
      (racks.set name (rack.free graph).1).ring? place id = none := by
    rw [ring?_set_free, none_found, Option.map_none]
  have wires : ((racks.set name (rack.free graph).1).wires : Nat × Call τ → _) =
      (racks.set name rack).wires := by
    refine wires_congr (fun place id ring found => ⟨_, freed_ring found, ?_⟩) fun _ _ => absent
    split <;> rfl
  have rate : middle.rate = graph.rate := by simp only [Graph.rate, clock]
  constructor
  case sound => exact played.sound
  case clock => exact played.clock.trans clock
  case size => rw [played.size, size]
  case connections => rw [played.connections, connections, voices, size, wires]
  case old => exact fun key lt => by rw [played.old key (size.symm ▸ lt), nodes, voices]
  case new => exact fun p mem => rate ▸ played.new p (size.symm ▸ mem)
  case rings =>
    intro place id ring found
    obtain ⟨ring', found', bare, nodes, generators⟩ :=
      played.rings place id _ (freed_ring found)
    rw [size] at nodes generators
    refine ⟨ring', found', ?_, ?_, ?_⟩
    · rw [bare]
      split <;> rfl
    · rw [nodes]
      by_cases here : place = name <;> simp [here, RingOscillator.freed]
    · rw [generators]
      by_cases here : place = name <;> simp [here, RingOscillator.freed]
  case absent => exact fun place id none_found => played.absent place id (absent none_found)
  case stages => exact fun place id => (played.stages place id).trans (stage?_set_free place id)
  case fittings =>
    intro place
    rw [played.fittings]
    simp only [Racks.set]
    split <;> rfl
  case memories =>
    intro place id ring ring' found found'
    rw [played.memories place id _ ring' (freed_ring found) found', rate]
    by_cases here : place = name
    · rw [if_pos here]
      rfl
    · rw [if_neg here]
  case scored =>
    intro p mem ring found i lt
    rw [played.scored p (size.symm ▸ mem) _ (freed_ring found) i lt, rate]
    by_cases here : p.2.name = name
    · rw [if_pos here]
      rfl
    · rw [if_neg here]
  case others =>
    intro place outside
    have differs : place ≠ name := by simpa using outside
    rw [set_of_ne differs, set_of_ne differs]
  case named => simpa using named

/-! ### Who holds what after a pass -/

section Turned

variable (sound : racks.Sound graph) (turned : Turned racks graph names calls racks' after)

include sound turned

omit sound in
/-- A key from before the pass that still lives is no old voice. -/
theorem Turned.not_voiced {key : NodeKey} (lt : key < graph.nodes.size) (alive : after.contains key) :
    key ∉ racks.voices names := by
  intro old
  rw [Graph.contains, turned.old key lt, if_pos old] at alive
  cases alive

/-- What lives on stays with its instrument. -/
theorem Turned.stays (name : String) (key : NodeKey) (owned : racks.Owns name key)
    (alive : after.contains key) : racks'.Owns name key := by
  have stays := turned.not_voiced (sound.lt_size owned) alive
  obtain ⟨holder, rfl, mem⟩ := owned
  cases holder with
  | stage name id =>
    refine ⟨.stage name id, rfl, ?_⟩
    rwa [held, turned.stages]
  | ring name id =>
    obtain ⟨ring, found, mem⟩ := exists_ring_of_mem_held mem
    obtain ⟨ring', found', bare, nodes, -⟩ := turned.rings name id ring found
    have output : ring'.oscillator.output = ring.oscillator.output :=
      congrArg (·.oscillator.output) bare
    have control : ring'.oscillator.control = ring.oscillator.control :=
      congrArg (·.oscillator.control) bare
    refine owns_ring found' (RingOscillator.mem_keys.mpr ?_)
    rw [output, control, nodes]
    rcases RingOscillator.mem_keys.mp mem with rfl | rfl | counted
    · exact .inl rfl
    · exact .inr (.inl rfl)
    · refine .inr (.inr (List.mem_append_left _ ?_))
      rw [if_neg]
      · exact counted
      · exact fun given_up => stays (mem_voices.mpr ⟨name, given_up, id, ring, found, counted⟩)

/-- A key from before the pass belongs to the instrument that it belonged to. -/
theorem Turned.owns_old {name : String} {key : NodeKey} (lt : key < graph.nodes.size)
    (owned : racks'.Owns name key) : racks.Owns name key := by
  have alive := turned.sound.contains_of_owns owned
  have lives : graph.contains key := by
    have seen := alive
    rwa [Graph.contains, turned.old key lt, if_neg (turned.not_voiced lt alive)] at seen
  rcases (sound.ledger.lives key).mp lives with destined | ⟨holder, held⟩
  · exact absurd destined (turned.sound.owned_ne_destination owned)
  · have before : racks.Owns holder.instrument key := ⟨holder, rfl, held⟩
    obtain rfl := turned.sound.owner_unique owned (turned.stays sound _ key before alive)
    exact before

/-- A key of the pass belongs to the instrument that a voice was asked of. -/
theorem Turned.exists_call {name : String} {key : NodeKey} (le : graph.nodes.size ≤ key)
    (owned : racks'.Owns name key) : ∃ id ring, racks.ring? name id = some ring ∧
      ∃ p ∈ Call.placed graph.nodes.size calls, p.2.name = name ∧ p.2.id = id ∧
        key ∈ Call.nodesOf p := by
  have new {other : String} (before : racks.Owns other key) : False :=
    absurd (sound.lt_size before) (Nat.not_lt.mpr le)
  obtain ⟨holder, rfl, mem⟩ := owned
  cases holder with
  | stage name id =>
    rw [held, turned.stages] at mem
    exact (new ⟨.stage name id, rfl, mem⟩).elim
  | ring name id =>
    cases found : racks.ring? name id with
    | none => simp [held, turned.absent name id found] at mem
    | some ring =>
      obtain ⟨ring', found', bare, nodes, -⟩ := turned.rings name id ring found
      have output : ring'.oscillator.output = ring.oscillator.output :=
        congrArg (·.oscillator.output) bare
      have control : ring'.oscillator.control = ring.oscillator.control :=
        congrArg (·.oscillator.control) bare
      rw [mem_held_ring found', RingOscillator.mem_keys, output, control, nodes] at mem
      rcases mem with rfl | rfl | counted
      · exact (new (owns_ring found ring.output_mem_keys)).elim
      · exact (new (owns_ring found ring.control_mem_keys)).elim
      · rcases List.mem_append.mp counted with old | asked
        · split at old
          · cases old
          · exact (new (owns_ring found (RingOscillator.mem_keys_of_counted old))).elim
        · obtain ⟨p, mem, here⟩ := List.mem_flatMap.mp asked
          obtain ⟨placed, is_for⟩ := List.mem_filter.mp mem
          obtain ⟨same_name, same_id⟩ := of_decide_eq_true is_for
          exact ⟨id, ring, found, p, placed, same_name, same_id, here⟩

/-- The wires of voices start from instruments that voices were asked of. -/
theorem Turned.called_of_wired {c : Connection}
    (wired : c ∈ (Call.placed graph.nodes.size calls).flatMap racks.wires) :
    ∃ call ∈ calls, racks'.Owns call.name c.source := by
  have made : c ∈ after.connections := turned.connections ▸ List.mem_append_right _ wired
  obtain ⟨name, owned, -⟩ := turned.sound.wired c made
  obtain ⟨p, placed, wired⟩ := List.mem_flatMap.mp wired
  rcases (ends_of_mem_voiceWires wired).1 with control | new
  · -- the control of a ring that is not there would be the destination
    cases found : racks.ring? p.2.name p.2.id with
    | none =>
      have destined : c.source = Graph.destination := by rw [control, Racks.control, found]; rfl
      exact absurd destined (turned.sound.owned_ne_destination owned)
    | some ring =>
      obtain ⟨ring', found', bare, -⟩ := turned.rings _ _ ring found
      refine ⟨p.2, Call.mem_of_mem_placed placed, ?_⟩
      have same : c.source = ring'.oscillator.control := by
        rw [control, Racks.control, found]
        exact (congrArg (·.oscillator.control) bare).symm
      rw [same]
      exact owns_ring found' ring'.control_mem_keys
  · have le : graph.nodes.size ≤ c.source :=
      Nat.le_trans (Call.bounds_of_mem_placed placed).1 (mem_voiceNodes.mp new).1
    obtain ⟨-, -, -, q, mem, rfl, -⟩ := turned.exists_call sound le owned
    exact ⟨q.2, Call.mem_of_mem_placed mem, owned⟩

end Turned

end Racks

end Patchbay
