import Patchbay.Proofs.Band.Isolation
import Patchbay.Proofs.Number.Zeros
import Patchbay.Proofs.Band.Redundancy

/-!
# Instruments that were removed

An instrument that a project lacks loses its voices and keeps its gains, with the cables between
them and into the destination. What these gains multiply are zeros, and as long as their factors are
finite they put out zeros again. A total begins with `0` and takes no notice of zeros, so that the
same is heard as if nothing of the instrument led into the destination.
-/
namespace Patchbay

open Number (Null)

variable {τ : Type}

/-! ### Totals that take no notice of zeros -/

section Totals

variable {signal : NodeKey → Float32} {links : List Link}

/-- Zeros add up to a zero. -/
theorem null_total (null : ∀ link ∈ links, Null (signal link.source)) :
    Null (total signal links) := by
  unfold total
  generalize (0.0 : Float32) = sum, Number.null_iff.mpr (.inl (rfl : (0.0 : Float32) = 0.0)) = start
  induction links generalizing sum with
  | nil => exact start
  | cons link rest ih =>
    exact ih (fun other mem => null other (List.mem_cons_of_mem _ mem)) _
      (start.add (null link List.mem_cons_self))

/-- Links that carry zeros can be left out. -/
theorem total_filter {keep : Link → Bool}
    (null : ∀ link ∈ links, keep link = false → Null (signal link.source)) :
    total signal (links.filter keep) = total signal links := by
  have from_any (sum : Float32) (inner : sum ≠ -0.0) :
      (links.filter keep).foldl (fun sum link => sum + signal link.source) sum =
        links.foldl (fun sum link => sum + signal link.source) sum := by
    induction links generalizing sum with
    | nil => rfl
    | cons link rest ih =>
      have later := ih fun other mem => null other (List.mem_cons_of_mem _ mem)
      cases kept : keep link with
      | true =>
        rw [List.filter_cons_of_pos kept]
        exact later _ (Number.add_ne_negative_zero inner _)
      | false =>
        rw [List.filter_cons_of_neg (by simp [kept]), List.foldl_cons,
          Number.add_null (null link List.mem_cons_self kept) inner]
        exact later _ inner
  exact from_any 0.0 (by decide)

end Totals

/-- What leads into a node when some connections are left out. -/
theorem incoming_filter (connections : List Connection) (keep : Connection → Bool)
    (key : NodeKey) : incoming (connections.filter keep) key =
      (incoming connections key).filter fun link => keep (link.into key) := by
  rw [incoming, incoming, List.filter_map, List.filter_filter, List.filter_filter]
  refine congrArg _ (List.filter_congr fun c _ => ?_)
  by_cases here : c.target = key
  · subst here
    simp [Link.into]
  · have differs : (c.target == key) = false := by simpa using here
    simp [differs]

/-! ### Nodes of a graph, frame by frame -/

namespace Racks

variable [TimeAxis τ] [Fourier] {racks : Racks} {graph : Graph τ}

/-- A planned gain multiplies what leads into it. -/
theorem Sound.sampleAt_gain (sound : racks.Sound graph) {step : Step}
    (planned : step ∈ graph.prepare.1.steps) {factor : Float32}
    (gain : graph.node? step.key = some (.gain factor)) (i : Nat) :
    graph.sampleAt i step.key = total (graph.sampleAt i) step.audio *
      (factor + total (graph.sampleAt i) step.modulation) := by
  have orders := sound.wellFormed.orders
  unfold Graph.sampleAt
  rw [sampleAt_step orders.once orders.earlier planned gain, Node.sampleAt, Node.after_gain]
  rfl

omit [TimeAxis τ] in
/-- Every connection into the destination is kept by the plan, as no cycle leads through it. -/
theorem Sound.inputs_destination (sound : racks.Sound graph) {step : Step}
    (planned : step ∈ graph.prepare.1.steps) (here : step.key = Graph.destination) :
    step.inputs = incoming graph.connections Graph.destination := by
  have orders := sound.wellFormed.orders
  rw [orders.listed step planned, here]
  refine List.filter_eq_self.mpr fun link _ => decide_eq_true fun dropped => ?_
  obtain ⟨next, feeds, -⟩ := Relation.TransGen.head'_iff.mp (orders.closes _ dropped)
  obtain ⟨other, planned', rfl, link', listed, is_destination⟩ := Plan.feeds_kept.mp feeds
  rw [orders.listed other planned'] at listed
  obtain ⟨place, owned, -⟩ := sound.wired _ (mem_incoming.mp (List.mem_filter.mp listed).1)
  exact sound.owned_ne_destination owned is_destination

/-- The destination gives out all that leads into it. -/
theorem Sound.sampleAt_destination (sound : racks.Sound graph) (i : Nat) :
    graph.sampleAt i Graph.destination = total (graph.sampleAt i)
      ((incoming graph.connections Graph.destination).filter fun link => link.inlet == .audio) := by
  have orders := sound.wellFormed.orders
  obtain ⟨step, planned, here⟩ := List.mem_map.mp sound.wellFormed.destination_planned
  have node : graph.node? step.key = some .destination := here ▸ sound.destination_node
  rw [← sound.inputs_destination planned here, ← here]
  unfold Graph.sampleAt
  rw [sampleAt_step orders.once orders.earlier planned node, Node.sampleAt, Node.after_destination]
  rfl

/-! ### Gains that nothing sounds through -/

/-- Every gain of an instrument has a finite factor. -/
def GainsFinite (racks : Racks) (graph : Graph τ) (name : String) : Prop :=
  ∀ id stage, racks.stage? name id = some stage →
    ∃ factor, graph.node? stage.key = some (.gain factor) ∧ factor.isFinite = true

/-- An instrument has no voices, and its gains have finite factors. -/
structure Inert (racks : Racks) (graph : Graph τ) (name : String) : Prop where
  silent : ∀ id ring, racks.ring? name id = some ring → ring.oscillator.nodes = []
  finite : racks.GainsFinite graph name

variable {name : String} {i : Nat}

omit [TimeAxis τ] in
/-- Whatever of an inert instrument leads somewhere is a gain with a finite factor. -/
theorem Inert.source (inert : racks.Inert graph name) (sound : racks.Sound graph) {c : Connection}
    (made : c ∈ graph.connections) (owned : racks.Owns name c.source) :
    ∃ factor, graph.node? c.source = some (.gain factor) ∧ factor.isFinite = true := by
  obtain ⟨rack, found_rack, held⟩ := owns_iff.mp owned
  simp only [Rack.keys, List.mem_append, List.mem_flatMap, List.mem_map, Roster.mem_values] at held
  rcases held with ⟨ring, ⟨id, found⟩, counted⟩ | ⟨stage, ⟨id, found⟩, same⟩
  · have found : racks.ring? name id = some ring :=
      Option.bind_eq_some_iff.mpr ⟨rack, found_rack, found⟩
    have silent := inert.silent id ring found
    rcases List.mem_cons.mp counted with is_output | counted
    · exact ⟨1.0, is_output ▸ (sound.rings name id ring found).output, rfl⟩
    · rcases List.mem_cons.mp counted with is_control | counted
      · have driven := sound.controls c made name id ring found is_control
        rw [silent] at driven
        cases driven
      · rw [silent] at counted
        cases counted
  · exact same ▸ inert.finite id stage (Option.bind_eq_some_iff.mpr ⟨rack, found_rack, found⟩)

/-- What an inert instrument puts out are zeros. The induction is along the order of the plan: all
that leads into a gain of the instrument is of the instrument and comes before it. -/
theorem Inert.null_sampleAt (inert : racks.Inert graph name) (sound : racks.Sound graph)
    {key : NodeKey} (planned : key ∈ graph.prepare.1.keys) (owned : racks.Owns name key) :
    Null (graph.sampleAt i key) := by
  have orders := sound.wellFormed.orders
  induction place : graph.prepare.1.keys.idxOf key using Nat.strong_induction_on
    generalizing key with
  | _ place ih =>
    subst place
    obtain ⟨step, listed, rfl⟩ := List.mem_map.mp planned
    obtain ⟨factor, gain, finite⟩ : ∃ factor, graph.node? step.key = some (.gain factor) ∧
        factor.isFinite = true := by
      rcases Relation.ReflTransGen.cases_head ((orders.reached _).mp planned) with
        here | ⟨next, ⟨inlet, made⟩, -⟩
      · exact absurd here (sound.owned_ne_destination owned)
      · exact inert.source sound made owned
    have null (link : Link) (mem : link ∈ step.inputs) : Null (graph.sampleAt i link.source) := by
      have feeds := Plan.feeds_kept.mpr ⟨step, listed, rfl, link, mem, rfl⟩
      refine ih _ (Plan.idxOf_lt_of_feeds orders.once orders.earlier feeds) ?_ ?_ rfl
      · obtain ⟨before, after, split⟩ := List.append_of_mem listed
        have earlier := orders.earlier before step after split link mem
        rw [Plan.keys, split, List.map_append]
        exact List.mem_append_left _ earlier
      · rw [orders.listed step listed] at mem
        have held : racks.Holds (· = name) step.key := ⟨name, rfl, owned⟩
        obtain ⟨other, rfl, source⟩ :=
          sound.holds_source (mem_incoming.mp (List.mem_filter.mp mem).1) held
        exact source
    rw [sound.sampleAt_gain listed gain]
    exact (null_total fun link mem => null link (List.mem_filter.mp mem).1).mul
      (Number.isFinite_add_null finite
        (null_total fun link mem => null link (List.mem_filter.mp mem).1))

/-! ### The same without the instrument -/

/-- A connection leads from an instrument into the destination. -/
def leadsOut (racks : Racks) (name : String) (c : Connection) : Bool :=
  c.target == Graph.destination && (racks name).any fun rack => c.source ∈ rack.keys

omit [TimeAxis τ] [Fourier] in
theorem leadsOut_iff {c : Connection} : racks.leadsOut name c = true ↔
    c.target = Graph.destination ∧ racks.Owns name c.source := by
  simp only [leadsOut, Bool.and_eq_true, beq_iff_eq, Option.any_eq_true, decide_eq_true_eq,
    owns_iff]

omit [TimeAxis τ] [Fourier] in
theorem not_leadsOut_iff {c : Connection} : (!racks.leadsOut name c) = true ↔
    ¬ (c.target = Graph.destination ∧ racks.Owns name c.source) := by
  rw [Bool.not_eq_true', ← Bool.not_eq_true, leadsOut_iff]

/-- One graph is the other but for the connections from an inert instrument into the destination. -/
structure Muffled (racks : Racks) (name : String) (graph graph' : Graph τ) : Prop where
  inert : racks.Inert graph name
  alike : Alike (· ≠ name) id racks graph racks graph'
  connections : graph'.connections = graph.connections.filter fun c => !racks.leadsOut name c

omit [TimeAxis τ] in
theorem Sound.muffled (sound : racks.Sound graph) (inert : racks.Inert graph name) :
    Muffled racks name graph (graph.keepConnections fun c => !racks.leadsOut name c).1 where
  inert := inert
  connections := rfl
  alike := by
    have sound' : racks.Sound (graph.keepConnections fun c => !racks.leadsOut name c).1 :=
      sound.rewire (sound.wellFormed.keepConnections _) (fun _ => rfl) (fun _ _ _ _ => rfl) rfl
        fun c mem => .inl (List.mem_filter.mp mem).1
    refine ⟨sound, sound', rfl, rfl, fun place _ id => ?_, fun place _ id => ?_, fun _ _ => rfl,
      fun _ _ => rfl, ?_⟩
    · cases racks.ring? place id with
      | none => exact .none
      | some ring => exact .some (.refl ring)
    · cases racks.stage? place id <;> rfl
    · -- what other instruments are wired to is all still there
      rw [sound.wiring_eq sound' (fun _ _ owned _ => owned) (List.append_nil _).symm,
        fromBand_eq_nil (by simp), List.append_nil, List.filter_eq_self.mpr]
      · exact (List.map_id _).symm
      · intro c mem
        obtain ⟨-, place, apart, owned⟩ := mem_wiring.mp mem
        exact not_leadsOut_iff.mpr fun leads => apart (sound.owner_unique owned leads.2)

variable {graph' : Graph τ}

theorem Muffled.sampleAt_destination (muffled : Muffled racks name graph graph') (i : Nat) :
    graph'.sampleAt i Graph.destination = graph.sampleAt i Graph.destination := by
  have sound := muffled.alike.sound
  rw [sound.sampleAt_destination, muffled.alike.sound'.sampleAt_destination, muffled.connections,
    incoming_filter]
  have made {link : Link} (mem : link ∈ incoming graph.connections Graph.destination) :
      link.into Graph.destination ∈ graph.connections := mem_incoming.mp mem
  -- what is left of the connections carries what it did, and what is gone carried zeros
  calc total (graph'.sampleAt i) (((incoming graph.connections Graph.destination).filter
        fun link => !racks.leadsOut name (link.into Graph.destination)).filter
          fun link => link.inlet == .audio)
      = total (graph.sampleAt i) (((incoming graph.connections Graph.destination).filter
          fun link => !racks.leadsOut name (link.into Graph.destination)).filter
            fun link => link.inlet == .audio) := by
        refine total_congr fun link mem => ?_
        obtain ⟨mem, stays⟩ := List.mem_filter.mp (List.mem_filter.mp mem).1
        obtain ⟨place, owned, -⟩ := sound.wired _ (made mem)
        have apart : place ≠ name := by
          rintro rfl
          exact not_leadsOut_iff.mp stays ⟨rfl, owned⟩
        exact muffled.alike.sampleAt i (.inl ⟨place, apart, owned⟩)
    _ = total (graph.sampleAt i) ((incoming graph.connections Graph.destination).filter
          fun link => link.inlet == .audio) := by
        rw [List.filter_comm]
        refine total_filter fun link mem leads => ?_
        have mem := (List.mem_filter.mp mem).1
        have owned := (leadsOut_iff.mp (by simpa using leads)).2
        exact muffled.inert.null_sampleAt sound
          ((sound.wellFormed.orders.reached _).mpr (.single ⟨link.inlet, made mem⟩)) owned

/-- A chunk is heard the same, and leaves the graphs the same but for these connections. -/
theorem Muffled.chunk (muffled : Muffled racks name graph graph') {n : Nat}
    (fits : n ≤ maxBlockSize) :
    ∃ samples after after', graph.renderChunk n = .ok (samples, after) ∧
      graph'.renderChunk n = .ok (samples, after') ∧ Muffled racks name after after' := by
  obtain ⟨after, after', run, run', -, -, alike⟩ := muffled.alike.chunk fits
  have steady := (Graph.elapsed_renderChunk run).steady
  have steady' := (Graph.elapsed_renderChunk run').steady
  simp only [muffled.sampleAt_destination] at run'
  refine ⟨_, after, after', run, run', ⟨muffled.inert.silent, fun id stage found => ?_⟩, alike, ?_⟩
  · obtain ⟨factor, gain, finite⟩ := muffled.inert.finite id stage found
    exact ⟨factor, steady.gains _ _ gain, finite⟩
  · rw [steady'.connections, muffled.connections, steady.connections]

theorem Muffled.renderChunks (muffled : Muffled racks name graph graph') {sizes : List Nat}
    (fits : ∀ n ∈ sizes, n ≤ maxBlockSize) :
    ∃ samples after after', graph.renderChunks sizes = .ok (samples, after) ∧
      graph'.renderChunks sizes = .ok (samples, after') := by
  induction sizes generalizing graph graph' with
  | nil => exact ⟨[], graph, graph', rfl, rfl⟩
  | cons n rest ih =>
    obtain ⟨here, middle, middle', run, run', onward⟩ := muffled.chunk (fits n List.mem_cons_self)
    obtain ⟨more, after, after', runs, runs'⟩ :=
      ih onward fun size mem => fits size (List.mem_cons_of_mem n mem)
    exact ⟨here ++ more, after, after', Graph.renderChunks_cons.mpr ⟨_, _, _, run, runs, rfl⟩,
      Graph.renderChunks_cons.mpr ⟨_, _, _, run', runs', rfl⟩⟩

/-- Frames are heard the same in both graphs. -/
theorem Muffled.render (muffled : Muffled racks name graph graph') (n : Nat) :
    ∃ samples after after', graph.render n = .ok (samples, after) ∧
      graph'.render n = .ok (samples, after') := by
  unfold Graph.render
  rw [muffled.alike.clock]
  split
  · exact muffled.renderChunks fun size mem => Graph.le_of_mem_chunks mem
  · exact ⟨_, graph, graph', rfl, rfl⟩

/-! ### Instruments that stay inert -/

omit [TimeAxis τ] [Fourier] in
theorem GainsFinite.of_same {racks' : Racks} {after : Graph τ}
    (finite : racks.GainsFinite graph name)
    (stages : ∀ id, racks'.stage? name id = racks.stage? name id)
    (nodes : ∀ id stage, racks.stage? name id = some stage →
      after.node? stage.key = graph.node? stage.key) : racks'.GainsFinite after name := by
  intro id stage found
  rw [stages] at found
  rw [nodes id stage found]
  exact finite id stage found

omit [TimeAxis τ] in
/-- What is done beside an instrument leaves its gains. -/
theorem GainsFinite.beside {racks' : Racks} {after : Graph τ}
    (finite : racks.GainsFinite graph name)
    (beside : Beside (· = name) racks graph racks' after) : racks'.GainsFinite after name :=
  finite.of_same (fun id => by rw [stage?, beside.same name rfl]; rfl)
    fun _ _ found => beside.nodes _ ⟨name, rfl, owns_stage found⟩

omit [TimeAxis τ] in
theorem Inert.beside {racks' : Racks} {after : Graph τ} (inert : racks.Inert graph name)
    (beside : Beside (· = name) racks graph racks' after) : racks'.Inert after name where
  silent := fun id ring found => by
    rw [ring?, beside.same name rfl] at found
    exact inert.silent id ring found
  finite := inert.finite.beside beside

omit [TimeAxis τ] [Fourier] in
theorem GainsFinite.steady {after : Graph τ} (finite : racks.GainsFinite graph name)
    (steady : graph.Steady after) : racks.GainsFinite after name := by
  intro id stage found
  obtain ⟨factor, gain, is_finite⟩ := finite id stage found
  exact ⟨factor, steady.gains _ _ gain, is_finite⟩

end Racks

namespace Transport

section Silencing

variable [TimeAxis τ] [Fourier] {transport : Transport τ} {name : String} {project : Project τ}

/-- Every gain of an instrument has a finite factor. -/
def GainsFinite (transport : Transport τ) (name : String) : Prop :=
  Racks.GainsFinite transport.racks.find? transport.graph name

instance (transport : Transport τ) (name : String) : Decidable (transport.GainsFinite name) :=
  decidable_of_iff (∀ rack ∈ transport.racks.find? name, ∀ entry ∈ rack.gains.entries,
      ∃ node ∈ transport.graph.node? entry.2.key, ∃ factor ∈ node.value? .gain,
        factor.isFinite = true) <| by
    constructor
    · intro all id stage found
      obtain ⟨rack, found_rack, found⟩ := Option.bind_eq_some_iff.mp found
      obtain ⟨node, lives, factor, value, finite⟩ :=
        all rack found_rack (id, stage) (Roster.find?_eq_some_iff.mp found)
      cases node <;> cases value
      exact ⟨_, lives, finite⟩
    · intro finite rack found_rack entry listed
      obtain ⟨factor, lives, is_finite⟩ := finite entry.1 entry.2
        (Option.bind_eq_some_iff.mpr ⟨rack, found_rack, Roster.find?_eq_some_iff.mpr listed⟩)
      exact ⟨_, lives, factor, rfl, is_finite⟩

/-- An instrument has no voices, and its gains have finite factors. -/
def Inert (transport : Transport τ) (name : String) : Prop :=
  Racks.Inert transport.racks.find? transport.graph name

omit [TimeAxis τ] in
theorem Sound.beside_equipAll (sound : transport.Sound)
    (absent : project.instruments.contains name = false) :
    Racks.Beside (· = name) transport.racks.find? transport.graph
      (transport.equipAll project).racks.find? (transport.equipAll project).graph := by
  refine List.foldlRecOn (motive := fun after : Transport τ => Racks.Beside (· = name)
      transport.racks.find? transport.graph after.racks.find? after.graph)
    project.instruments.entries _ ⟨sound, rfl, fun _ _ => rfl, fun _ _ => rfl, rfl⟩ ?_
  rintro start beside ⟨other, instrument⟩ listed
  have apart : name ≠ other := by
    rintro rfl
    rw [Roster.contains_iff_mem_names.mpr (List.mem_map_of_mem listed)] at absent
    cases absent
  let next := start.equip other instrument (project.cablesOf other)
  have equipped : Racks.Beside (· = name) start.racks.find? start.graph next.racks.find?
      next.graph :=
    Sound.beside_equip beside.sound (fun same => apart same.symm) instrument
      (project.cablesOf other)
  exact beside.trans equipped

/-- To free voices leaves the gains of instruments. -/
theorem Sound.gainsFinite_freeWhere (sound : transport.Sound) (finite : transport.GainsFinite name)
    (which : String → Bool) : (transport.freeWhere which).GainsFinite name := by
  obtain ⟨-, -, -, -, nodes⟩ := sound.freeWhere which
  refine Racks.GainsFinite.of_same finite (transport.stage?_freeWhere which name)
    fun id stage found => ?_
  rw [nodes, if_neg]
  intro mem
  obtain ⟨other, part, ring, -, found_ring, counted⟩ := mem_voicesWhere.mp mem
  have same := sound.ledger.apart (.stage name id) (.ring other part) stage.key
    ((Racks.mem_held_stage found).mpr rfl)
    ((Racks.mem_held_ring found_ring).mpr (RingOscillator.mem_keys_of_counted counted))
  cases same

theorem Sound.inert_freeWhere (sound : transport.Sound) (inert : transport.Inert name)
    (which : String → Bool) : (transport.freeWhere which).Inert name where
  silent := by
    intro id ring found
    rw [ring?_freeWhere] at found
    obtain ⟨old, found_old, rfl⟩ := Option.map_eq_some_iff.mp found
    split
    · rfl
    · exact inert.silent id old found_old
  finite := sound.gainsFinite_freeWhere inert.finite which

/-- Once a project without the instrument has been equipped and cleared, the instrument is inert. -/
theorem Sound.inert_cleared (sound : transport.Sound) (finite : transport.GainsFinite name)
    (absent : project.instruments.contains name = false) :
    (transport.cleared project).Inert name := by
  have beside := sound.beside_equipAll absent
  have equipped : (transport.equipAll project).Sound := beside.sound
  exact ⟨fun id ring found => ((sound.clear project).silent name id ring absent found).1,
    equipped.gainsFinite_freeWhere (finite.beside beside) _⟩

omit [TimeAxis τ] [Fourier] in
theorem Inert.steady {other : Transport τ} (inert : transport.Inert name)
    (racks : other.racks = transport.racks) (steady : transport.graph.Steady other.graph) :
    other.Inert name := by
  unfold Inert
  rw [racks]
  exact ⟨inert.silent, inert.finite.steady steady⟩

/-- To reconcile with a project that lacks an instrument makes it inert. -/
theorem Sound.inert_reconcile (sound : transport.Sound) (finite : transport.GainsFinite name)
    (absent : project.instruments.contains name = false) :
    (transport.reconcile project).state.Inert name := by
  have inert := sound.inert_cleared finite absent
  have cleared_sound := (sound.clear project).sound
  by_cases playing : project.playing = true
  · obtain ⟨scheduled, -, -, -, nodes, -, turned⟩ := sound.reconcile_playing playing
    have outside (other : String) (listed : other ∈ project.instruments.names) : other ≠ name := by
      rintro rfl
      rw [Roster.contains_iff_mem_names.mpr listed] at absent
      cases absent
    have onward := Racks.Inert.beside inert
      (Racks.Sound.beside_turned cleared_sound turned outside)
    refine ⟨onward.silent, onward.finite.of_same (fun _ => rfl) fun id stage _ => ?_⟩
    simp only [Graph.node?, nodes]
  · rw [reconcile_eq, if_neg playing, Attempt.done_andThen]
    unfold Transport.followState
    split
    · contradiction
    · have paused := inert.steady (racks_pause _) (steady_pause _)
      exact cleared_sound.pause.inert_freeWhere paused _
    · exact inert

/-- An inert instrument stays so until a project names it again. -/
theorem Sound.inert_perform (sound : transport.Sound) (inert : transport.Inert name)
    {operation : Operation τ} (absent : ∀ project ∈ projects [operation],
      project.instruments.contains name = false) : (transport.perform operation).Inert name := by
  cases operation with
  | play => exact inert.steady transport.racks_play transport.steady_play
  | pause => exact inert.steady transport.racks_pause transport.steady_pause
  | reset => exact inert.steady rfl transport.steady_reset
  | seek position => exact inert
  | reconcile project =>
    exact sound.inert_reconcile inert.finite (absent project (List.mem_singleton.mpr rfl))
  | render frames =>
    unfold Transport.perform
    dsimp only
    split
    · rename_i rendered
      simp only [Transport.render, Fault.bind_ok_iff] at rendered
      obtain ⟨⟨samples, graph⟩, rendered, same⟩ := rendered
      cases same
      exact inert.steady rfl (Graph.elapsed_render rendered).steady
    · exact inert

/-! ### What is heard -/

/-- A transport without the connections from an instrument into the destination. -/
def detached (transport : Transport τ) (name : String) : Transport τ :=
  { transport with
    graph := (transport.graph.keepConnections fun c =>
      !Racks.leadsOut transport.racks.find? name c).1 }

/-- An inert instrument is not heard. -/
theorem Sound.heard_detached (sound : transport.Sound) (inert : transport.Inert name) (n : Nat) :
    ∃ samples, transport.heard n = .ok samples ∧
      (transport.detached name).heard n = .ok samples := by
  obtain ⟨samples, after, after', run, run'⟩ := (Racks.Sound.muffled sound inert).render n
  refine ⟨samples, ?_, ?_⟩
  · simp only [heard, Transport.render, run]
    rfl
  · simp only [heard, Transport.render, detached, run']
    rfl

theorem Sound.observed_detached (sound : transport.Sound) (inert : transport.Inert name)
    {operations : List (Operation τ)}
    (absent : ∀ project ∈ projects operations, project.instruments.contains name = false) :
    ∃ samples : List (List Float32), transport.observed heard operations = samples.map .ok ∧
      transport.observed (fun transport => (transport.detached name).heard) operations =
        samples.map .ok := by
  induction operations generalizing transport with
  | nil => exact ⟨[], rfl, rfl⟩
  | cons operation rest ih =>
    have split : projects (operation :: rest) = projects [operation] ++ projects rest :=
      List.filterMap_append (l := [operation])
    rw [split] at absent
    have onward := sound.inert_perform inert fun project mem =>
      absent project (List.mem_append_left _ mem)
    obtain ⟨samples, later, later'⟩ := ih (sound.perform operation) onward fun project mem =>
      absent project (List.mem_append_right _ mem)
    cases operation with
    | render n =>
      obtain ⟨here, heard, heard'⟩ := sound.heard_detached inert n
      exact ⟨here :: samples, by rw [observed, heard, later, List.map_cons],
        by rw [observed, heard', later', List.map_cons]⟩
    | _ => exact ⟨samples, later, later'⟩

/-- Once a project lacks an instrument whose gains had finite factors, and until a project names the
instrument again, all that is rendered is what would be rendered if nothing led from the instrument
into the destination. -/
theorem removed_instrument_inert (settings : Settings) (operations : List (Operation τ))
    {name : String} (finite : (after settings operations).GainsFinite name) (project : Project τ)
    (removed : project.instruments.contains name = false) (later : List (Operation τ))
    (absent : ∀ project ∈ projects later, project.instruments.contains name = false) :
    let start := (after settings operations).perform (.reconcile project)
    ∃ samples : List (List Float32), start.observed heard later = samples.map .ok ∧
      start.observed (fun transport => (transport.detached name).heard) later =
        samples.map .ok :=
  have sound := (sound_after settings operations).1
  (sound.perform (.reconcile project)).observed_detached (sound.inert_reconcile finite removed)
    absent

end Silencing

theorem removed_instrument_inert_demo :
    let operations : List (Operation Float) := [.reconcile Project.demo]
    let project := { Project.demo with instruments := Project.demo.instruments.erase "inst1" }
    let later : List (Operation Float) :=
      [.render 300, .reset, .seek 5.0, .reconcile project, .render 2500]
    let start := (after {} operations).perform (.reconcile project)
    (after {} operations).GainsFinite "inst1" ∧ project.instruments.contains "inst1" = false ∧
      (∀ project ∈ projects later, project.instruments.contains "inst1" = false) ∧
      ∃ samples : List (List Float32), start.observed heard later = samples.map .ok ∧
        start.observed (fun transport => (transport.detached "inst1").heard) later =
          samples.map .ok := by
  intro operations project later start
  have finite : (after {} operations).GainsFinite "inst1" := by decide +kernel
  have removed : project.instruments.contains "inst1" = false := by decide +kernel
  have absent : ∀ project ∈ projects later, project.instruments.contains "inst1" = false :=
    fun other mem => List.mem_singleton.mp mem ▸ removed
  exact ⟨finite, removed, absent,
    removed_instrument_inert {} operations finite project removed later absent⟩

/-- A gain whose factor is infinite makes a NaN of the zeros that are left, and that is heard. -/
theorem infinite_gain_heard :
    let instrument := { Instrument.bare "in" "out" with gains := .ofList [("g", 1.0 / 0.0)] }
    let empty : Project Float := { Project.empty with playing := true }
    let project := empty.addInstrument "a" instrument [⟨"e", "g", "out", .usual⟩]
    let start := (after { sampleRate := 4.0 } [.reconcile project]).perform (.reconcile empty)
    empty.instruments.contains "a" = false ∧
      start.observed heard [.render 2] ≠
        start.observed (fun transport => (transport.detached "a").heard) [.render 2] := by
  intro instrument empty project start
  refine ⟨rfl, fun same => ?_⟩
  have samples := congrArg (List.map fun heard : Except Fault (List Float32) =>
    heard.toOption.map (List.map Float32.toBits)) same
  revert samples
  decide +kernel

end Transport

end Patchbay
