import Patchbay.Proofs.Band.Lockstep

/-!
# Transports in unison

Two transports play a band in unison when their graphs are alike for the band and they are at the
same place. To equip an instrument of the band in both, or any other instrument in one of them, keeps
them in unison.
-/
namespace Patchbay

variable {τ : Type}

/-- Rings that keep their settings are the same, if their voices and their waves are. -/
theorem RingOscillator.Twin.of_bare {f : NodeKey → NodeKey} {ring ring' next next' : RingOscillator}
    (twin : ring.Twin f ring') (same : next.bare = ring.bare) (same' : next'.bare = ring'.bare)
    (nodes : next'.oscillator.nodes = next.oscillator.nodes.map f)
    (generators : next'.oscillator.generators = next.oscillator.generators.map f)
    (memory : next'.memory = next.memory) : next.Twin f next' where
  partials := (congrArg (·.oscillator.partials) same').trans
    (twin.partials.trans (congrArg (·.oscillator.partials) same).symm)
  follows := (congrArg (·.oscillator.followsNote) same').trans
    (twin.follows.trans (congrArg (·.oscillator.followsNote) same).symm)
  signals := (congrArg (·.signals) same').trans
    (twin.signals.trans (congrArg (·.signals) same).symm)
  weights := (congrArg (·.weights) same').trans
    (twin.weights.trans (congrArg (·.weights) same).symm)
  output := (congrArg (·.oscillator.output) same').trans
    (twin.output.trans (congrArg (f ·.oscillator.output) same).symm)
  control := (congrArg (·.oscillator.control) same').trans
    (twin.control.trans (congrArg (f ·.oscillator.control) same).symm)
  nodes := nodes
  generators := generators
  memory := memory

namespace Racks

variable {band : String → Prop} {f : NodeKey → NodeKey} {racks racks' : Racks}
  {graph after graph' after' : Graph τ} {name : String}

theorem Beside.trans [Fourier] {middle : Racks} {between : Graph τ}
    (first : Beside band racks graph middle between)
    (second : Beside band middle between racks' after) :
    Beside band racks graph racks' after where
  sound := second.sound
  clock := second.clock.trans first.clock
  same := fun name member => (second.same name member).trans (first.same name member)
  nodes := by
    intro key held
    rw [second.nodes key ((holds_congr first.same key).mpr held), first.nodes key held]
  wiring := second.wiring.trans first.wiring

theorem wiring_congr (same : ∀ name, band name → racks' name = racks name)
    (connections : after.connections = graph.connections) :
    racks'.wiring band after = racks.wiring band graph := by
  unfold wiring fromBand
  rw [connections]
  exact List.filter_congr fun c _ => decide_eq_decide.mpr (holds_congr same c.source)

theorem ring?_rackOf (racks : Racks) (name place id : String) :
    (racks.set name (racks.rackOf name)).ring? place id = racks.ring? place id := by
  rw [ring?_set]
  split
  · rename_i here
    subst here
    unfold Racks.rackOf ring?
    cases racks place <;> rfl
  · rfl

theorem stage?_rackOf (racks : Racks) (name place id : String) :
    (racks.set name (racks.rackOf name)).stage? place id = racks.stage? place id := by
  rw [stage?_set]
  split
  · rename_i here
    subst here
    unfold Racks.rackOf stage?
    cases racks place <;> rfl
  · rfl

theorem held_rackOf (racks : Racks) (name : String) :
    (racks.set name (racks.rackOf name)).held = racks.held := by
  funext holder
  cases holder <;> simp only [held, ring?_rackOf, stage?_rackOf]

theorem holds_rackOf (racks : Racks) (name : String) :
    (racks.set name (racks.rackOf name)).Holds = racks.Holds := by
  unfold Holds Owns
  rw [held_rackOf]

variable [Fourier]

/-- A rack without parts is added in both graphs. -/
theorem Alike.rackOf (alike : Alike band f racks graph racks' graph') (member : band name) :
    Alike band f (racks.set name (racks.rackOf name)) graph
      (racks'.set name (racks'.rackOf name)) graph' where
  sound := alike.sound.rackOf name
  sound' := alike.sound'.rackOf name
  clock := alike.clock
  destination := alike.destination
  rings := by
    intro place place_member id
    rw [ring?_rackOf, ring?_rackOf]
    exact alike.rings place place_member id
  stages := by
    intro place place_member id
    rw [stage?_rackOf, stage?_rackOf]
    exact alike.stages place place_member id
  labels := by
    intro place place_member
    have labels := alike.labels place place_member
    by_cases here : place = name
    · subst here
      rw [set_self, set_self]
      unfold Racks.rackOf
      cases found : racks place <;> cases found' : racks' place <;> simp [found, found'] at labels ⊢
      exact labels
    · rwa [set_of_ne here, set_of_ne here]
  nodes := by
    intro key held
    rw [holds_rackOf] at held
    exact alike.nodes key held
  wiring := by
    unfold Racks.wiring fromBand
    rw [holds_rackOf, holds_rackOf]
    exact alike.wiring

/-- An instrument of the band is equipped in both graphs. -/
theorem Alike.equip (alike : Alike band f racks graph racks' graph') (member : band name)
    (instrument : Instrument) (cables : List Cable) :
    let next := racks.equip graph name instrument cables
    let next' := racks'.equip graph' name instrument cables
    ∃ g, Alike band g (racks.set name next.1) next.2 (racks'.set name next'.1) next'.2 := by
  intro next next'
  obtain ⟨g, furnished⟩ := (alike.rackOf member).furnish member instrument
  obtain ⟨changed, after, patch, patched⟩ := furnished.sound.patched cables
  obtain ⟨changed', after', patch', patched'⟩ := furnished.sound'.patched cables
  have is_next : next = (changed, after) := patch
  have is_next' : next' = (changed', after') := patch'
  rw [is_next, is_next']
  exact ⟨g, furnished.patch member patched patched'⟩

/-- An instrument outside of the band is equipped. -/
theorem Sound.beside_equip (sound : racks.Sound graph) (outside : ¬ band name)
    (instrument : Instrument) (cables : List Cable) :
    let next := racks.equip graph name instrument cables
    Beside band racks graph (racks.set name next.1) next.2 := by
  intro next
  have differs {other : String} (member : band other) : other ≠ name :=
    fun same => outside (same ▸ member)
  have named : Beside band racks graph (racks.set name (racks.rackOf name)) graph :=
    ⟨sound.rackOf name, rfl, fun other member => set_of_ne (differs member), fun _ _ => rfl,
      wiring_congr (fun other member => set_of_ne (differs member)) rfl⟩
  obtain ⟨furnished, middle, furnish, furnished_sound, spares, connections, clock, -⟩ :=
    (sound.rackOf name).furnish instrument
  obtain ⟨changed, after, patch, patched⟩ := furnished_sound.patched cables
  have is_next : next = (changed, after) := by
    simp only [next, Racks.equip, furnish, patch]
  have connections : middle.connections = graph.connections.filter (fun _ => true) ++ [] := by
    simpa using connections
  rw [is_next]
  refine named.trans (((sound.rackOf name).beside_set furnished_sound outside clock spares
    connections (fun _ _ => rfl) (by simp)).trans (furnished_sound.beside_set patched.sound outside
      patched.clock patched.spares patched.connections (fun c mem => ?_)
      fun c mem => patched.owns furnished_sound mem))
  have theirs {key : NodeKey} (held : (racks.set name furnished).Holds band key) :
      ∃ place, place ≠ name ∧ racks.Owns place key := by
    obtain ⟨other, member, owned⟩ := held
    exact ⟨other, differs member, (owns_set_of_ne (differs member) furnished key).mp owned⟩
  exact furnished_sound.spares_of_foreign (theirs (mem_wiring.mp mem).2)
    ((furnished_sound.target_of_mem_wiring mem).imp_right theirs)

/-! ### Voices -/

variable {names names' : List String} {calls : List (Call τ)}

section Turned

variable (sound : racks.Sound graph) (turned : Turned racks graph names calls racks' after)

include sound turned

/-- Instruments outside of the band play. -/
theorem Sound.beside_turned (outside : ∀ name ∈ names, ¬ band name) :
    Beside band racks graph racks' after := by
  -- no instrument of the band has a key that is given up or made
  have kept {key : NodeKey} (held : racks.Holds band key) : key ∉ racks.voices names := by
    obtain ⟨name, member, owned⟩ := held
    intro old
    obtain ⟨other, given_up, id, ring, found, counted⟩ := mem_voices.mp old
    have theirs := owns_ring found (RingOscillator.mem_keys_of_counted counted)
    exact outside other given_up (sound.owner_unique owned theirs ▸ member)
  constructor
  case sound => exact turned.sound
  case clock => exact turned.clock
  case same => exact fun name member => turned.others name fun listed => outside name listed member
  case nodes =>
    rintro key held
    have lt : key < graph.nodes.size := by
      obtain ⟨name, -, owned⟩ := held
      exact sound.lt_size owned
    rw [turned.old key lt, if_neg (kept held)]
  case wiring =>
    rw [sound.wiring_eq turned.sound (turned.stays sound) turned.connections,
      List.filter_eq_self.mpr, fromBand_eq_nil, List.append_nil]
    · rintro c mem ⟨name, member, owned⟩
      obtain ⟨call, called, theirs⟩ := turned.called_of_wired sound mem
      obtain rfl := turned.sound.owner_unique owned theirs
      exact outside call.name (turned.named call called) member
    · intro c mem
      refine decide_eq_true ⟨kept (mem_wiring.mp mem).2, ?_⟩
      rcases sound.target_of_mem_wiring mem with destined | held
      · rw [destined]
        exact sound.destination_not_voiced
      · exact kept held

/-- All new wires are those of the band, if none but its instruments are asked for voices. -/
theorem Turned.fromBand_wires (asked : ∀ call ∈ calls, band call.name) :
    racks'.fromBand band ((Call.placed graph.nodes.size calls).flatMap racks.wires) =
      (Call.placed graph.nodes.size calls).flatMap racks.wires := by
  refine fromBand_eq_self fun c wired => ?_
  obtain ⟨call, called, owned⟩ := turned.called_of_wired sound wired
  exact ⟨call.name, asked call called, owned⟩

end Turned

section Both

variable {next next' : Racks} (alike : Alike band f racks graph racks' graph')
  (turned : Turned racks graph names calls next after)
  (turned' : Turned racks' graph' names' calls next' after')
  (given_up : ∀ name, band name → (name ∈ names' ↔ name ∈ names))

include alike

theorem Alike.output (name id : String) (member : band name) :
    racks'.output name id = f (racks.output name id) := by
  have both := alike.rings name member id
  unfold Racks.output
  cases found : racks.ring? name id <;> cases found' : racks'.ring? name id <;>
    rw [found, found'] at both <;> cases both
  · exact alike.destination.symm
  · rename_i twin
    exact twin.output

theorem Alike.control (name id : String) (member : band name) :
    racks'.control name id = f (racks.control name id) := by
  have both := alike.rings name member id
  unfold Racks.control
  cases found : racks.ring? name id <;> cases found' : racks'.ring? name id <;>
    rw [found, found'] at both <;> cases both
  · exact alike.destination.symm
  · rename_i twin
    exact twin.control

theorem Alike.output_lt (name id : String) : racks.output name id < graph.nodes.size ∧
    racks.control name id < graph.nodes.size := by
  unfold Racks.output Racks.control
  cases found : racks.ring? name id with
  | none => exact ⟨alike.sound.ledger.destination_lt, alike.sound.ledger.destination_lt⟩
  | some ring =>
    exact ⟨alike.sound.lt_size (owns_ring found ring.output_mem_keys),
      alike.sound.lt_size (owns_ring found ring.control_mem_keys)⟩

/-- Voices are wired in the same way under other keys. -/
theorem Alike.wires {p : Nat × Call τ} (member : band p.2.name)
    (shifts : Shifts (extend f graph.nodes.size graph'.nodes.size) p.1) :
    racks'.wires (extend f graph.nodes.size graph'.nodes.size p.1, p.2) =
      (racks.wires p).map (Connection.map (extend f graph.nodes.size graph'.nodes.size)) := by
  obtain ⟨output_lt, control_lt⟩ := alike.output_lt p.2.name p.2.id
  rw [Racks.wires, Racks.wires, map_voiceWires _ _ _ shifts, alike.output _ _ member,
    alike.control _ _ member, extend_of_lt output_lt, extend_of_lt control_lt]

/-- Of the nodes of an oscillator, the same ones are a part of it. -/
theorem Alike.mem_part (part : RingOscillator → List NodeKey)
    (moved : ∀ ring ring' : RingOscillator, ring.Twin f ring' → part ring' = (part ring).map f)
    (within : ∀ name id ring, racks.ring? name id = some ring → part ring ⊆ ring.keys)
    (within' : ∀ name id ring, racks'.ring? name id = some ring → part ring ⊆ ring.keys)
    {asked asked' : String → Prop} (same : ∀ name, band name → (asked' name ↔ asked name))
    {key : NodeKey} (held : racks.Holds band key) :
    (∃ name, asked' name ∧ ∃ id ring, racks'.ring? name id = some ring ∧ f key ∈ part ring) ↔
      ∃ name, asked name ∧ ∃ id ring, racks.ring? name id = some ring ∧ key ∈ part ring := by
  constructor
  · rintro ⟨name, listed, id, ring', found', mem⟩
    -- the owner of the renamed key is in the band
    obtain ⟨other, member, owned⟩ := held
    obtain rfl := alike.sound'.owner_unique (alike.owns member owned)
      (owns_ring found' (within' name id ring' found' mem))
    have both := alike.rings other member id
    rw [found'] at both
    cases found : racks.ring? other id <;> rw [found] at both <;> cases both
    rename_i ring twin
    rw [moved ring ring' twin] at mem
    obtain ⟨key', mem, image⟩ := List.mem_map.mp mem
    have mine := owns_ring found (within other id ring found mem)
    rw [alike.injective ⟨other, member, mine⟩ ⟨other, member, owned⟩ image] at mem
    exact ⟨other, (same other member).mp listed, id, ring, found, mem⟩
  · rintro ⟨name, listed, id, ring, found, mem⟩
    have member : band name := by
      obtain ⟨other, member, owned⟩ := held
      exact alike.sound.owner_unique owned (owns_ring found (within name id ring found mem)) ▸ member
    obtain ⟨ring', found', twin⟩ := alike.ring member found
    refine ⟨name, (same name member).mpr listed, id, ring', found', ?_⟩
    rw [moved ring ring' twin]
    exact List.mem_map_of_mem mem

include given_up

/-- The same voices are given up. -/
theorem Alike.mem_voices {key : NodeKey} (held : racks.Holds band key) :
    f key ∈ racks'.voices names' ↔ key ∈ racks.voices names := by
  rw [Racks.mem_voices, Racks.mem_voices]
  exact alike.mem_part (·.oscillator.nodes) (fun _ _ twin => twin.nodes)
    (fun _ _ _ _ _ counted => RingOscillator.mem_keys_of_counted counted)
    (fun _ _ _ _ _ counted => RingOscillator.mem_keys_of_counted counted) given_up held

/-- A connection of the band loses an end just if the other one does. -/
theorem Alike.loses_no_end {c : Connection} (mem : c ∈ racks.wiring band graph) :
    ((c.map f).source ∉ racks'.voices names' ∧ (c.map f).target ∉ racks'.voices names') ↔
      (c.source ∉ racks.voices names ∧ c.target ∉ racks.voices names) := by
  have source := alike.mem_voices given_up (mem_wiring.mp mem).2
  refine and_congr (not_congr source) (not_congr ?_)
  rcases alike.sound.target_of_mem_wiring mem with destined | held
  · rw [Connection.map, destined, alike.destination]
    exact iff_of_false alike.sound'.destination_not_voiced alike.sound.destination_not_voiced
  · exact alike.mem_voices given_up held

include turned turned'

/-- Oscillators have the same voices under other keys. -/
theorem Alike.ring_turned (name : String) (member : band name) (id : String) :
    Option.Rel (RingOscillator.Twin (extend f graph.nodes.size graph'.nodes.size))
      (next.ring? name id) (next'.ring? name id) := by
  have shifts := shifts_extend f graph.nodes.size graph'.nodes.size
  have both := alike.rings_congr (fun key lt => extend_of_lt lt graph'.nodes.size) member id
  cases found : racks.ring? name id <;> cases found' : racks'.ring? name id <;>
    rw [found, found'] at both <;> cases both
  · rw [turned.absent name id found, turned'.absent name id found']
    exact .none
  · rename_i ring ring' twin
    obtain ⟨last, found_last, bare, nodes, generators⟩ := turned.rings name id ring found
    obtain ⟨last', found_last', bare', nodes', generators'⟩ := turned'.rings name id ring' found'
    obtain ⟨voices, sounding⟩ := Call.voices_moved shifts calls name id
    rw [extend_self] at voices sounding
    have memory := turned.memories name id ring last found found_last
    have memory' := turned'.memories name id ring' last' found' found_last'
    rw [RingOscillator.recalled_congr twin.partials twin.signals twin.weights twin.memory,
      alike.rate, twin.memory, ← memory] at memory'
    rw [found_last, found_last']
    have given (old : List NodeKey) :
        (if name ∈ names' then [] else old.map (extend f graph.nodes.size graph'.nodes.size)) =
          (if name ∈ names then [] else old).map (extend f graph.nodes.size graph'.nodes.size) := by
      by_cases listed : name ∈ names
      · rw [if_pos listed, if_pos ((given_up name member).mpr listed), List.map_nil]
      · rw [if_neg listed, if_neg (mt (given_up name member).mp listed)]
    refine .some (twin.of_bare bare bare' ?_ ?_ memory')
    · rw [nodes', nodes, List.map_append, voices, twin.nodes, given]
    · rw [generators', generators, List.map_append, sounding, twin.generators, given]

/-- Instruments of the band play the same in both graphs. -/
theorem Alike.turn (asked : ∀ call ∈ calls, band call.name) :
    Alike band (extend f graph.nodes.size graph'.nodes.size) next after next' after' := by
  have shifts := shifts_extend f graph.nodes.size graph'.nodes.size
  have placed : Call.placed graph'.nodes.size calls = (Call.placed graph.nodes.size calls).map
      fun p => (extend f graph.nodes.size graph'.nodes.size p.1, p.2) := by
    rw [← Call.placed_shift shifts, extend_self]
  have agrees (key : NodeKey) (lt : key < graph.nodes.size) :
      extend f graph.nodes.size graph'.nodes.size key = f key := extend_of_lt lt _
  constructor
  case sound => exact turned.sound
  case sound' => exact turned'.sound
  case clock => rw [turned'.clock, alike.clock, turned.clock]
  case destination =>
    rw [agrees _ alike.sound.ledger.destination_lt]
    exact alike.destination
  case rings => exact alike.ring_turned turned turned' given_up
  case stages =>
    intro name member id
    rw [turned.stages, turned'.stages]
    exact alike.stages_congr agrees member id
  case labels =>
    intro name member
    have fittings := congrArg (Option.map Rack.labels) (turned.fittings name)
    have fittings' := congrArg (Option.map Rack.labels) (turned'.fittings name)
    simp only [Option.map_map] at fittings fittings'
    exact fittings'.trans ((alike.labels name member).trans fittings.symm)
  case nodes =>
    rintro key ⟨name, member, owned⟩
    by_cases lt : key < graph.nodes.size
    · have before := turned.owns_old alike.sound lt owned
      have held : racks.Holds band key := ⟨name, member, before⟩
      have stays := turned.not_voiced lt (turned.sound.contains_of_owns owned)
      rw [agrees key lt, turned.old key lt, if_neg stays,
        turned'.old _ (alike.sound'.lt_size (alike.owns member before)),
        if_neg (mt (alike.mem_voices given_up held).mp stays)]
      exact alike.nodes key held
    · obtain ⟨id, ring, found, p, mem, rfl, rfl, here⟩ :=
        turned.exists_call alike.sound (Nat.not_lt.mp lt) owned
      obtain ⟨ring', found', twin⟩ := alike.ring member found
      obtain ⟨i, rfl⟩ := Nat.exists_eq_add_of_le (mem_voiceNodes.mp here).1
      have within : i < p.2.width := by
        have le := (mem_voiceNodes.mp here).2
        unfold Call.width
        simp only [NodeKey] at *
        omega
      have mem' : (extend f graph.nodes.size graph'.nodes.size p.1, p.2) ∈
          Call.placed graph'.nodes.size calls := placed ▸ List.mem_map_of_mem mem
      rw [Call.shifts_placed shifts mem i, turned.scored p mem ring found i within,
        turned'.scored _ mem' ring' found' i within, alike.rate,
        RingOscillator.score_congr twin.partials twin.signals twin.weights twin.memory]
  case wiring =>
    have same : (Call.placed graph'.nodes.size calls).flatMap racks'.wires =
        ((Call.placed graph.nodes.size calls).flatMap racks.wires).map
          (Connection.map (extend f graph.nodes.size graph'.nodes.size)) := by
      rw [placed, List.flatMap_map, List.map_flatMap]
      exact List.flatMap_congr fun p mem =>
        alike.wires (asked _ (Call.mem_of_mem_placed mem)) (Call.shifts_placed shifts mem)
    rw [alike.sound.wiring_eq turned.sound (turned.stays alike.sound) turned.connections,
      turned.fromBand_wires alike.sound asked,
      alike.sound'.wiring_eq turned'.sound (turned'.stays alike.sound') turned'.connections,
      turned'.fromBand_wires alike.sound' asked, same, alike.wiring, List.filter_map,
      List.map_append]
    congr 1
    have still : (racks.wiring band graph).filter
        ((fun c => decide (c.source ∉ racks'.voices names' ∧ c.target ∉ racks'.voices names')) ∘
          Connection.map f) = (racks.wiring band graph).filter
            (fun c => c.source ∉ racks.voices names ∧ c.target ∉ racks.voices names) :=
      List.filter_congr fun c mem => decide_eq_decide.mpr (alike.loses_no_end given_up mem)
    rw [still]
    exact List.map_congr_left fun c mem =>
      (alike.map_congr agrees (List.mem_filter.mp mem).1).symm

end Both

end Racks

end Patchbay
