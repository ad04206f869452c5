import Patchbay.Proofs.Rack.Patching
import Patchbay.Proofs.Voice.Voicing

/-!
# Voices come and go

A voice that is scheduled joins the nodes of its ring, and nodes that are removed leave it. Both
keep the racks and the graph in step.
-/
namespace Patchbay

variable {τ : Type}

/-! ### Removal -/

/-- A ring without voices. -/
def RingOscillator.freed (ring : RingOscillator) : RingOscillator :=
  { ring with oscillator := { ring.oscillator with nodes := [], generators := [] } }

namespace Racks

variable [Fourier] {racks racks' : Racks} {name : String} {rack : Rack} {graph after : Graph τ}

theorem Sound.output_not_counted (sound : racks.Sound graph) {place id place' id' : String}
    {ring ring' : RingOscillator} (found : racks.ring? place id = some ring)
    (found' : racks.ring? place' id' = some ring') :
    ring.oscillator.output ∉ ring'.oscillator.nodes ∧
      ring.oscillator.control ∉ ring'.oscillator.nodes := by
  have separate (key : NodeKey) (mine : key ∈ ring.keys) (counted : key ∈ ring'.oscillator.nodes) :
      ring' = ring := by
    have theirs : key ∈ ring'.keys := RingOscillator.mem_keys_of_counted counted
    have same := sound.ledger.apart _ _ key ((mem_held_ring found).mpr mine)
      ((mem_held_ring found').mpr theirs)
    injection same with same_place same_id
    subst same_place same_id
    rw [found] at found'
    exact (Option.some.inj found').symm
  have once := sound.ledger.once (.ring place id)
  simp only [held, found, Option.elim, RingOscillator.keys, List.nodup_cons, List.mem_cons,
    not_or] at once
  constructor
  · intro counted
    obtain rfl := separate _ List.mem_cons_self counted
    exact once.1.2 counted
  · intro counted
    obtain rfl := separate _ (RingOscillator.control_mem_keys _) counted
    exact once.2.1 counted

/-- The voices of some of the instruments are removed, and nothing else. -/
structure Released (racks : Racks) (graph : Graph τ) (which : String → Bool)
    (keys : List NodeKey) (racks' : Racks) (after : Graph τ) : Prop where
  listed : ∀ key, key ∈ keys ↔ ∃ place id ring, which place = true ∧
    racks.ring? place id = some ring ∧ key ∈ ring.oscillator.nodes
  rings : ∀ place id, racks'.ring? place id = (racks.ring? place id).map fun ring =>
    if which place then ring.freed else ring
  stages : ∀ place id, racks'.stage? place id = racks.stage? place id
  sinks : ∀ place rack id key, racks' place = some rack → rack.sinks.find? id = some key →
    key = Graph.destination
  wellFormed : after.WellFormed
  rate : after.rate = graph.rate
  nodes : ∀ key, after.node? key = if key ∈ keys then none else graph.node? key
  connections : after.connections =
    graph.connections.filter fun c => c.source ∉ keys ∧ c.target ∉ keys

section Release

variable {which : String → Bool} {keys : List NodeKey}

/-- A ring that is not freed keeps its nodes. -/
theorem Released.not_listed (released : racks.Released graph which keys racks' after)
    (sound : racks.Sound graph) {place id : String} {ring : RingOscillator}
    (kept : which place = false) (found : racks.ring? place id = some ring) {key : NodeKey}
    (counted : key ∈ ring.oscillator.nodes) : key ∉ keys := by
  intro mem
  obtain ⟨place', id', ring', freed, found', counted'⟩ := (released.listed key).mp mem
  have mine : key ∈ ring.keys := RingOscillator.mem_keys_of_counted counted
  have theirs : key ∈ ring'.keys := RingOscillator.mem_keys_of_counted counted'
  injection sound.ledger.apart _ _ key ((mem_held_ring found).mpr mine)
    ((mem_held_ring found').mpr theirs) with same_place
  rw [same_place, freed] at kept
  cases kept

/-- Every ring keeps its output stage and its control. -/
theorem Released.stays (released : racks.Released graph which keys racks' after)
    (sound : racks.Sound graph) {place id : String} {ring : RingOscillator}
    (found : racks.ring? place id = some ring) :
    ring.oscillator.output ∉ keys ∧ ring.oscillator.control ∉ keys := by
  constructor
  · intro mem
    obtain ⟨_, _, _, _, found', counted⟩ := (released.listed _).mp mem
    exact (sound.output_not_counted found found').1 counted
  · intro mem
    obtain ⟨_, _, _, _, found', counted⟩ := (released.listed _).mp mem
    exact (sound.output_not_counted found found').2 counted

/-- What is still held is what was held and is not removed. -/
theorem Released.mem_held (released : racks.Released graph which keys racks' after)
    (sound : racks.Sound graph) (holder : Holder) (key : NodeKey) :
    key ∈ racks'.held holder ↔ key ∈ racks.held holder ∧ key ∉ keys := by
  cases holder with
  | stage place id =>
    simp only [held, released.stages]
    refine ⟨fun mem => ⟨mem, fun gone => ?_⟩, And.left⟩
    obtain ⟨_, _, ring, _, found, counted⟩ := (released.listed key).mp gone
    have theirs : key ∈ ring.keys := RingOscillator.mem_keys_of_counted counted
    have mine : key ∈ racks.held (.stage place id) := mem
    cases sound.ledger.apart _ _ key mine ((mem_held_ring found).mpr theirs)
  | ring place id =>
    cases found : racks.ring? place id with
    | none => simp [held, released.rings, found]
    | some ring =>
      obtain ⟨output, control⟩ := released.stays sound found
      simp only [held, released.rings, found, Option.map_some, Option.elim, RingOscillator.keys,
        List.mem_cons]
      by_cases freed : which place
      · simp only [freed, if_true, RingOscillator.freed, List.not_mem_nil, or_false]
        constructor
        · rintro (rfl | rfl)
          · exact ⟨.inl rfl, output⟩
          · exact ⟨.inr (.inl rfl), control⟩
        · rintro ⟨rfl | rfl | counted, stays⟩
          · exact .inl rfl
          · exact .inr rfl
          · exact absurd ((released.listed key).mpr ⟨place, id, ring, freed, found, counted⟩) stays
      · simp only [freed, Bool.false_eq_true, if_false]
        refine ⟨fun mem => ⟨mem, ?_⟩, And.left⟩
        rcases mem with rfl | rfl | counted
        · exact output
        · exact control
        · exact released.not_listed sound (by simpa using freed) found counted

theorem Released.ledger (released : racks.Released graph which keys racks' after)
    (sound : racks.Sound graph) : Ledger racks'.held after where
  once := by
    intro holder
    have once := sound.ledger.once holder
    cases holder with
    | stage place id => simpa only [held, released.stages] using once
    | ring place id =>
      cases found : racks.ring? place id with
      | none => simp [held, released.rings, found]
      | some ring =>
        simp only [held, found, released.rings, Option.map_some, Option.elim] at once ⊢
        split
        · refine once.sublist ?_
          exact ((List.nil_sublist _).cons_cons _).cons_cons _
        · exact once
  apart := by
    intro holder other key mem mem'
    exact sound.ledger.apart _ _ key ((released.mem_held sound _ _).mp mem).1
      ((released.mem_held sound _ _).mp mem').1
  lives := by
    intro key
    have contains_iff : after.contains key ↔ graph.contains key ∧ key ∉ keys := by
      simp only [Graph.contains, released.nodes]
      by_cases gone : key ∈ keys <;> simp [gone]
    rw [contains_iff, sound.ledger.lives]
    constructor
    · rintro ⟨rfl | ⟨holder, mem⟩, stays⟩
      · exact .inl rfl
      · exact .inr ⟨holder, (released.mem_held sound _ _).mpr ⟨mem, stays⟩⟩
    · rintro (rfl | ⟨holder, mem⟩)
      · refine ⟨.inl rfl, fun gone => ?_⟩
        obtain ⟨_, _, ring, _, found, counted⟩ := (released.listed _).mp gone
        exact sound.ledger.inner _ ((mem_held_ring found).mpr
          (RingOscillator.mem_keys_of_counted counted))
      · obtain ⟨mem, stays⟩ := (released.mem_held sound _ _).mp mem
        exact ⟨.inr ⟨holder, mem⟩, stays⟩
  inner := fun holder mem => sound.ledger.inner holder ((released.mem_held sound _ _).mp mem).1

/-- A ring is what it was, with its voices or without them. -/
theorem Released.ring_sound (released : racks.Released graph which keys racks' after)
    (sound : racks.Sound graph) {place id : String} {ring : RingOscillator}
    (found : racks.ring? place id = some ring) :
    (if which place then ring.freed else ring).Sound after := by
  obtain ⟨output, control⟩ := released.stays sound found
  have ring_sound := sound.rings place id ring found
  have output_node : after.node? ring.oscillator.output = some (.gain 1.0) := by
    rw [released.nodes, if_neg output, ring_sound.output]
  have control_kind : after.kind? ring.oscillator.control = some .constant := by
    rw [Graph.kind?, released.nodes, if_neg control]
    exact ring_sound.control
  by_cases freed : which place
  · simp only [freed, if_true]
    constructor
    case output => exact output_node
    case control => exact control_kind
    case voices => exact fun _ mem => absurd mem List.not_mem_nil
    case generators => exact List.Sublist.refl _
    case kept => exact released.rate ▸ ring_sound.kept
    case voiced => exact fun some_nodes => absurd rfl some_nodes
  · simp only [freed, Bool.false_eq_true, if_false]
    constructor
    case output => exact output_node
    case control => exact control_kind
    case voices =>
      intro key counted
      have stays := released.not_listed sound (by simpa using freed) found counted
      rw [Graph.kind?, released.nodes, if_neg stays]
      exact ring_sound.voices key counted
    case generators => exact ring_sound.generators
    case kept => exact released.rate ▸ ring_sound.kept
    case voiced => exact released.rate ▸ ring_sound.voiced

/-- To remove voices keeps the racks and the graph in step. -/
theorem Released.sound (released : racks.Released graph which keys racks' after)
    (sound : racks.Sound graph) : racks'.Sound after := by
  have untouched {c : Connection} (mem : c ∈ after.connections) :
      c ∈ graph.connections ∧ c.source ∉ keys ∧ c.target ∉ keys := by
    rw [released.connections] at mem
    simpa using mem
  have owns {place : String} {key : NodeKey} (owned : racks.Owns place key) (stays : key ∉ keys) :
      racks'.Owns place key := by
    obtain ⟨holder, named, mem⟩ := owned
    exact ⟨holder, named, (released.mem_held sound holder key).mpr ⟨mem, stays⟩⟩
  constructor
  case wellFormed => exact released.wellFormed
  case sinks => exact released.sinks
  case ledger => exact released.ledger sound
  case rings =>
    intro place id ring' found'
    rw [released.rings] at found'
    obtain ⟨ring, found, rfl⟩ := Option.map_eq_some_iff.mp found'
    exact released.ring_sound sound found
  case stages =>
    intro place id stage found
    have held_stage := (released.mem_held sound (.stage place id) stage.key).mp
      ((mem_held_stage found).mpr rfl)
    rw [released.stages] at found
    rw [Graph.kind?, released.nodes, if_neg held_stage.2]
    exact sound.stages place id stage found
  case wired =>
    intro c mem
    obtain ⟨mem, source_stays, target_stays⟩ := untouched mem
    obtain ⟨place, source, target⟩ := sound.wired c mem
    exact ⟨place, owns source source_stays, target.imp_right fun owned => owns owned target_stays⟩
  case controls =>
    intro c mem place id ring' found' driven
    obtain ⟨mem, -, target_stays⟩ := untouched mem
    rw [released.rings] at found'
    obtain ⟨ring, found, rfl⟩ := Option.map_eq_some_iff.mp found'
    by_cases freed : which place
    · simp only [freed, if_true] at driven
      have counted := sound.controls c mem place id ring found driven
      exact absurd ((released.listed _).mpr ⟨place, id, ring, freed, found, counted⟩) target_stays
    · simp only [freed, Bool.false_eq_true, if_false] at driven ⊢
      exact sound.controls c mem place id ring found driven

end Release

end Racks

namespace Rack

/-- The nodes of all voices of a rack. -/
def tracked (rack : Rack) : List NodeKey :=
  rack.oscillators.values.flatMap (·.oscillator.nodes)

theorem mem_tracked {rack : Rack} {key : NodeKey} : key ∈ rack.tracked ↔
    ∃ id ring, rack.oscillators.find? id = some ring ∧ key ∈ ring.oscillator.nodes := by
  simp only [tracked, List.mem_flatMap, Roster.mem_values]
  constructor
  · rintro ⟨ring, ⟨id, found⟩, counted⟩
    exact ⟨id, ring, found, counted⟩
  · rintro ⟨id, ring, found, counted⟩
    exact ⟨ring, ⟨id, found⟩, counted⟩

theorem snd_free (rack : Rack) (graph : Graph τ) :
    (rack.free graph).2 = rack.tracked.foldl (fun graph key => (graph.remove key).1) graph := by
  simp only [free, modifyOscillators, Roster.snd_mapState, tracked, List.foldl_flatMap,
    Roster.values, List.foldl_map]
  rfl

theorem fst_free_congr (rack : Rack) (graph other : Graph τ) :
    (rack.free graph).1 = (rack.free other).1 := by
  simp only [free, modifyOscillators]
  rw [Roster.fst_mapState_congr (fun _ _ _ _ => rfl) rack.oscillators graph other]

theorem find?_free (rack : Rack) (graph : Graph τ) (id : String) :
    (rack.free graph).1.oscillators.find? id =
      (rack.oscillators.find? id).map RingOscillator.freed :=
  Roster.find?_mapState (g := fun _ => RingOscillator.freed) (fun _ _ _ => rfl) _ _ id

/-- A rack without voices is free. -/
theorem free_eq_self {rack : Rack} (silent : ∀ id ring, rack.oscillators.find? id = some ring →
    ring.oscillator.nodes = [] ∧ ring.oscillator.generators = []) (graph : Graph τ) :
    rack.free graph = (rack, graph) := by
  have same : rack.oscillators.mapState (fun _ ring graph =>
      ring.withOscillator graph Oscillator.free) graph = (rack.oscillators, graph) := by
    refine Roster.mapState_eq_self fun id ring found => ?_
    obtain ⟨⟨partials, output, control, follows, memo, nodes, generators⟩, _⟩ := ring
    obtain ⟨rfl, rfl⟩ : nodes = [] ∧ generators = [] := silent id _ found
    rfl
  simp only [free, modifyOscillators, same]

end Rack

/-- A ring that counts one voice more is sound where the voice was added. -/
theorem RingOscillator.Sound.grown [Fourier] {ring scheduled : RingOscillator}
    {graph after : Graph τ} {sheet : Sheet τ} {nodes : List (Node τ)} {wires : List Connection}
    (sound : ring.Sound graph) (grown : graph.Grown after nodes wires)
    (shown : List.Forall₂ (Component.Shown graph.rate) sheet.components nodes)
    (bare : scheduled.bare = ring.bare)
    (counted : scheduled.oscillator.nodes =
      ring.oscillator.nodes ++ voiceNodes graph.nodes.size sheet.branches.length)
    (generators : scheduled.oscillator.generators =
      ring.oscillator.generators ++ voiceGenerators graph.nodes.size sheet.branches.length)
    (kept : ∀ memo, scheduled.Keeps memo → memo.Made graph.rate)
    (fits : binCount graph.rate ≤ Partials.maxBins) : scheduled.Sound after := by
  have length : nodes.length = 1 + 3 * sheet.branches.length :=
    shown.length_eq.symm.trans sheet.length_components
  have output : scheduled.oscillator.output = ring.oscillator.output :=
    congrArg (·.oscillator.output) bare
  have control : scheduled.oscillator.control = ring.oscillator.control :=
    congrArg (·.oscillator.control) bare
  have old_lt (key : Nat) (mem : key ∈ ring.oscillator.nodes) : key < graph.nodes.size := by
    obtain ⟨node, found, -⟩ := Option.map_eq_some_iff.mp (sound.voices key mem)
    exact Graph.lt_size_of_node? found
  constructor
  case output => rw [output, grown.lives sound.output]
  case control =>
    obtain ⟨node, lives, kind⟩ := Option.map_eq_some_iff.mp sound.control
    rw [control, Graph.kind?, grown.lives lives, Option.map_some, kind]
  case voices =>
    intro key mem
    rw [counted, List.mem_append] at mem
    rw [generators]
    rcases mem with old | new
    · have lt := old_lt key old
      have not_new : key ∉ voiceGenerators graph.nodes.size sheet.branches.length := fun mem =>
        Nat.not_le.mpr lt (mem_voiceNodes.mp ((voiceGenerators_sublist _ _).subset mem)).1
      have was := sound.voices key old
      rw [Graph.kind?] at was ⊢
      rw [grown.node?_of_lt lt]
      simpa [not_new] using was
    · obtain ⟨le, within⟩ := mem_voiceNodes.mp new
      obtain ⟨i, rfl⟩ := Nat.exists_eq_add_of_le le
      obtain ⟨node, here⟩ : ∃ node, nodes[i]? = some node :=
        ⟨_, List.getElem?_eq_getElem (by omega)⟩
      have not_old : graph.nodes.size + i ∉ ring.oscillator.generators := fun mem =>
        Nat.not_le.mpr (old_lt _ (sound.generators.subset mem)) le
      have kind : graph.nodes.size + i ∈ voiceGenerators graph.nodes.size sheet.branches.length ↔
          node.kind = .generator := Sheet.kind_of_shown shown here
      rw [Graph.kind?, grown.node?_new, here, Option.map_some]
      simp only [List.mem_append, not_old, false_or]
      split
      · rename_i generator
        rw [kind.mp generator]
      · rename_i no_generator
        have either := Sheet.kind_of_mem shown (List.mem_of_getElem? here)
        rw [either.resolve_left fun generator => no_generator (kind.mpr generator)]
  case generators =>
    rw [generators, counted]
    exact sound.generators.append (voiceGenerators_sublist _ _)
  case kept => exact grown.rate ▸ kept
  case voiced => exact fun _ => grown.rate ▸ fits

namespace Racks

variable {racks : Racks} {name : String} {rack : Rack} {graph : Graph τ}

theorem ring?_set_free (place id : String) :
    (racks.set name (rack.free graph).1).ring? place id =
      ((racks.set name rack).ring? place id).map fun ring =>
        if place = name then ring.freed else ring := by
  rw [ring?_set, ring?_set, Rack.find?_free]
  by_cases here : place = name <;> simp [here]

theorem stage?_set_free (place id : String) :
    (racks.set name (rack.free graph).1).stage? place id =
      (racks.set name rack).stage? place id := by
  rw [stage?_set, stage?_set]
  rfl

variable [Fourier]

/-- The voices of a rack are removed, and nothing else. -/
theorem Sound.free (sound : (racks.set name rack).Sound graph) :
    ∃ after, rack.free graph = ((rack.free graph).1, after) ∧
      (racks.set name (rack.free graph).1).Sound after ∧ racks.Spares name graph after ∧
      after.clock = graph.clock ∧ after.nodes.size = graph.nodes.size ∧
      after.connections = graph.connections.filter
        (fun c => c.source ∉ rack.tracked ∧ c.target ∉ rack.tracked) ∧
      ∀ key, after.node? key = if key ∈ rack.tracked then none else graph.node? key := by
  have owned (key : NodeKey) (mem : key ∈ rack.tracked) : (racks.set name rack).Owns name key := by
    obtain ⟨id, ring, found, counted⟩ := Rack.mem_tracked.mp mem
    exact owns_ring (ring?_set_self.trans found)
      (RingOscillator.mem_keys_of_counted counted)
  have inner : Graph.destination ∉ rack.tracked := by
    intro mem
    obtain ⟨holder, -, mem⟩ := owned _ mem
    exact sound.ledger.inner holder mem
  obtain ⟨after, removed, wellFormed, clock, size, connections, nodes⟩ :=
    graph.foldl_remove sound.wellFormed rack.tracked inner
  refine ⟨after, ?_, ?_, ?_, clock, size, connections, nodes⟩
  · rw [← removed, ← Rack.snd_free]
  · have released : (racks.set name rack).Released graph (· == name) rack.tracked
        (racks.set name (rack.free graph).1) after := by
      refine ⟨fun key => ?_, fun place id => ?_, stage?_set_free,
        sound.sinks_set sound.sinks_self, wellFormed, ?_, nodes, connections⟩
      · simp only [beq_iff_eq, Rack.mem_tracked]
        constructor
        · rintro ⟨id, ring, found, counted⟩
          exact ⟨name, id, ring, rfl, ring?_set_self.trans found, counted⟩
        · rintro ⟨_, id, ring, rfl, found, counted⟩
          exact ⟨id, ring, ring?_set_self.symm.trans found, counted⟩
      · simp only [ring?_set_free, beq_iff_eq]
      · simp only [Graph.rate, clock]
    exact released.sound sound
  · refine sound.spares_of_owned fun key _ foreign => ?_
    rw [nodes, if_neg fun mem => foreign (owned key mem)]

theorem Sound.playable (sound : racks.Sound graph) {place id : String} {ring : RingOscillator}
    (found : racks.ring? place id = some ring)
    (fits : binCount graph.rate ≤ Partials.maxBins) : ring.Playable graph where
  wellFormed := sound.wellFormed
  fits := fits
  kept := (sound.rings place id ring found).kept
  control := sound.control_node found
  output := ⟨_, (sound.rings place id ring found).output⟩

/-- A voice is scheduled on a ring of a rack. -/
theorem Sound.scheduleRing [TimeAxis τ] (sound : (racks.set name rack).Sound graph) {id : String}
    {ring : RingOscillator} (found : rack.oscillators.find? id = some ring)
    (fits : binCount graph.rate ≤ Partials.maxBins) (note : Note τ) (position : τ) :
    ∃ scheduled after nodes,
      ring.schedule graph note position = .ok (note.delays position, scheduled, after) ∧
      (racks.set name (rack.putOscillator id scheduled)).Sound after ∧
      List.Forall₂ (Component.Shown graph.rate)
        (ring.sheet graph.now position note).components nodes ∧
      graph.Grown after nodes (voiceWires ring.oscillator.output ring.oscillator.control
        graph.nodes.size ring.branches.length) ∧
      scheduled.bare = ring.bare ∧
      scheduled.oscillator.nodes =
        ring.oscillator.nodes ++ voiceNodes graph.nodes.size ring.branches.length ∧
      scheduled.oscillator.generators =
        ring.oscillator.generators ++ voiceGenerators graph.nodes.size ring.branches.length ∧
      nodes.map Node.unnumbered = ring.score graph.rate (ring.oscillator.pitch note)
        (some (graph.now + (note.delays position).start))
        (some (graph.now + (note.delays position).stop)) ∧
      scheduled.memory = ring.recalled graph.rate := by
  have found' : (racks.set name rack).ring? name id = some ring := ring?_set_self.trans found
  obtain ⟨scheduled, after, nodes, schedule, shown, grown, kept, bare, counted, generators,
    waves⟩ := RingOscillator.schedule_spec (sound.playable found' fits) note position
  refine ⟨scheduled, after, nodes, schedule, ?_, shown, grown, bare, counted, generators, waves⟩
  have output : scheduled.oscillator.output = ring.oscillator.output :=
    congrArg (·.oscillator.output) bare
  have control : scheduled.oscillator.control = ring.oscillator.control :=
    congrArg (·.oscillator.control) bare
  have keys : scheduled.keys = ring.keys ++ voiceNodes graph.nodes.size ring.branches.length := by
    simp only [RingOscillator.keys, output, control, counted, List.cons_append]
  have held_here : (racks.set name rack).held (.ring name id) = ring.keys := by
    simp [held, found']
  have old_lt (key : Nat) (mem : key ∈ ring.keys) : key < graph.nodes.size :=
    sound.ledger.lt_size (held_here.symm ▸ mem)
  have length : nodes.length = 1 + 3 * ring.branches.length :=
    shown.length_eq.symm.trans (Sheet.length_components _)
  refine sound.putOscillator grown.wellFormed ?_ grown.rate ?_ ?_ ?_ ?_ ?_ ?_
  · exact (sound.rings name id ring found').grown grown shown bare counted generators kept fits
  · rw [keys]
    refine List.nodup_append.mpr ⟨held_here ▸ sound.ledger.once _, voiceNodes_nodup _ _, ?_⟩
    intro old mem new mem' same
    exact Nat.not_le.mpr (old_lt old mem) (same ▸ (mem_voiceNodes.mp mem').1)
  · intro key mem
    rw [keys, List.mem_append] at mem
    exact mem.imp (fun old => held_here.symm ▸ old) fun new => (mem_voiceNodes.mp new).1
  · intro key
    rw [grown.contains_iff, held_here, keys, List.mem_append, mem_voiceNodes, length]
    constructor
    · rintro (lives | new)
      · by_cases mine : key ∈ ring.keys
        · exact .inl (.inl mine)
        · exact .inr ⟨lives, mine⟩
      · simp only [NodeKey] at *
        exact .inl (.inr (by omega))
    · rintro ((mine | new) | ⟨lives, -⟩)
      · exact .inl ((sound.ledger.lives key).mpr (.inr ⟨_, held_here.symm ▸ mine⟩))
      · simp only [NodeKey] at *
        exact .inr (by omega)
      · exact .inl lives
  · intro key lives _
    obtain ⟨node, found⟩ := Option.isSome_iff_exists.mp lives
    exact (grown.lives found).trans found.symm
  · intro c mem
    rw [grown.connections, List.mem_append] at mem
    refine mem.imp_right fun new => ?_
    obtain ⟨source, target⟩ := ends_of_mem_voiceWires new
    rw [keys]
    simp only [RingOscillator.keys, List.mem_append, List.mem_cons]
    refine ⟨?_, ?_⟩
    · exact source.elim (fun same => .inl (.inr (.inl same))) .inr
    · exact target.elim .inr fun same => .inl (.inl same.1)
  · intro c mem driven
    rw [grown.connections, List.mem_append] at mem
    rw [counted, List.mem_append]
    rcases mem with old | new
    · exact .inl (sound.controls c old name id ring found' (driven.trans control))
    · rcases (ends_of_mem_voiceWires new).2 with target | ⟨-, source⟩
      · exact .inr target
      · have lt : c.source < graph.nodes.size := by
          rw [driven, control]
          exact old_lt _ (RingOscillator.control_mem_keys _)
        exact absurd (mem_voiceNodes.mp source).1 (Nat.not_le.mpr lt)

end Racks

end Patchbay
