import Patchbay.Proofs.Reconciliation.Compilation

/-!
# The layout of a project in the graph

After a reconciliation with a project that is to be played, the nodes of its instruments stand as
their boards say, the voices come after them, and no other connection touches any of these nodes.
-/
namespace Patchbay

variable {τ : Type}

/-- What holds the nodes of a project: the oscillators and the gains that it describes. -/
def Project.holders (project : Project τ) : List Holder :=
  project.instruments.entries.flatMap fun (name, instrument) =>
    instrument.oscillators.names.map (Holder.ring name) ++
      instrument.gains.names.map (Holder.stage name)

theorem Project.mem_holders {project : Project τ} {holder : Holder} :
    holder ∈ project.holders ↔ ∃ name instrument, project.instruments.find? name = some instrument ∧
      ((∃ id, instrument.oscillators.contains id ∧ holder = .ring name id) ∨
        ∃ id, instrument.gains.contains id ∧ holder = .stage name id) := by
  simp only [holders, List.mem_flatMap, List.mem_append, List.mem_map, Roster.contains_iff_mem_names]
  constructor
  · rintro ⟨⟨name, instrument⟩, entry, mem⟩
    refine ⟨name, instrument, Roster.find?_eq_some_iff.mpr entry, ?_⟩
    rcases mem with ⟨id, listed, rfl⟩ | ⟨id, listed, rfl⟩
    · exact .inl ⟨id, listed, rfl⟩
    · exact .inr ⟨id, listed, rfl⟩
  · rintro ⟨name, instrument, found, mem⟩
    refine ⟨(name, instrument), Roster.find?_eq_some_iff.mp found, ?_⟩
    rcases mem with ⟨id, listed, rfl⟩ | ⟨id, listed, rfl⟩
    · exact .inl ⟨id, listed, rfl⟩
    · exact .inr ⟨id, listed, rfl⟩

theorem Project.nodup_holders (project : Project τ) : project.holders.Nodup := by
  have each (entry : String × Instrument) :
      (entry.2.oscillators.names.map (Holder.ring entry.1) ++
        entry.2.gains.names.map (Holder.stage entry.1)).Nodup := by
    refine List.nodup_append.mpr ⟨?_, ?_, ?_⟩
    · refine entry.2.oscillators.names_nodup.map fun id id' same => ?_
      injection same
    · refine entry.2.gains.names_nodup.map fun id id' same => ?_
      injection same
    · intro holder mem other mem'
      obtain ⟨_, -, rfl⟩ := List.mem_map.mp mem
      obtain ⟨_, -, rfl⟩ := List.mem_map.mp mem'
      simp
  refine List.nodup_flatMap.mpr ⟨fun entry _ => each entry, ?_⟩
  have once : project.instruments.entries.Pairwise fun entry other => entry.1 ≠ other.1 :=
    List.pairwise_map.mp project.instruments.names_nodup
  refine once.imp fun {entry other} differs holder mem mem' => differs ?_
  have named {entry : String × Instrument}
      (mem : holder ∈ entry.2.oscillators.names.map (Holder.ring entry.1) ++
        entry.2.gains.names.map (Holder.stage entry.1)) : holder.instrument = entry.1 := by
    rcases List.mem_append.mp mem with mem | mem <;> obtain ⟨_, -, rfl⟩ := List.mem_map.mp mem <;> rfl
  exact (named mem).symm.trans (named mem')

/-! ### Sites through a pass -/

namespace Racks

variable [Fourier] {racks racks' : Racks} {graph after : Graph τ} {names : List String}
  {calls : List (Call τ)} {name : String}

theorem Turned.keyAt (turned : Turned racks graph names calls racks' after) (name : String) :
    racks'.keyAt name = racks.keyAt name := by
  have rings (name id : String) (ring : RingOscillator) (found : racks.ring? name id = some ring) :
      ∃ ring', racks'.ring? name id = some ring' ∧ ring'.bare = ring.bare := by
    obtain ⟨ring', found', bare, -⟩ := turned.rings name id ring found
    exact ⟨ring', found', bare⟩
  obtain ⟨output, control⟩ := ends_congr rings turned.absent
  funext site
  cases site <;> simp only [Racks.keyAt, output, control, turned.stages]

theorem Turned.stands (turned : Turned racks graph names calls racks' after) (site : Site) :
    racks'.Stands name site ↔ racks.Stands name site := by
  have ring (id : String) :
      (∃ ring, racks'.ring? name id = some ring) ↔ ∃ ring, racks.ring? name id = some ring := by
    constructor
    · rintro ⟨ring', found'⟩
      cases found : racks.ring? name id with
      | some ring => exact ⟨ring, rfl⟩
      | none =>
        rw [turned.absent name id found] at found'
        cases found'
    · rintro ⟨ring, found⟩
      obtain ⟨ring', found', -⟩ := turned.rings name id ring found
      exact ⟨ring', found'⟩
  cases site with
  | output id | control id => exact ring id
  | stage id =>
    show (∃ stage, racks'.stage? name id = some stage) ↔ ∃ stage, racks.stage? name id = some stage
    rw [turned.stages]
  | destination => exact Iff.rfl

theorem Sound.keyAt_not_voiced (sound : racks.Sound graph) {site : Site}
    (stands : racks.Stands name site) (names : List String) :
    racks.keyAt name site ∉ racks.voices names := by
  intro mem
  obtain ⟨place, -, id, ring, found, counted⟩ := mem_voices.mp mem
  exact sound.keyAt_not_counted stands found counted

/-- A pass leaves the nodes of sites as they are. -/
theorem Turned.node?_keyAt (turned : Turned racks graph names calls racks' after)
    (sound : racks.Sound graph) {site : Site} (stands : racks.Stands name site) :
    after.node? (racks.keyAt name site) = graph.node? (racks.keyAt name site) := by
  rw [turned.old _ (sound.keyAt_lt stands), if_neg (sound.keyAt_not_voiced stands names)]

theorem Turned.settled (turned : Turned racks graph names calls racks' after)
    (sound : racks.Sound graph) {known : Site → Prop} {board : Board}
    (settled : racks.Settled name graph known board) :
    racks'.Settled name after known board where
  rings := by
    intro id described
    obtain ⟨ring, found, control, follows⟩ := settled.rings id described
    obtain ⟨ring', found', bare, -⟩ := turned.rings name id ring found
    have same : ring'.oscillator.control = ring.oscillator.control :=
      congrArg (·.oscillator.control) bare
    have stands : racks.Stands name (.control id) := ⟨ring, found⟩
    have kept := turned.node?_keyAt sound stands
    rw [keyAt_control found] at kept
    refine ⟨ring', found', ?_, ?_⟩
    · rw [same, kept, control]
    · rw [← follows]
      exact congrArg (·.oscillator.followsNote) bare
  stages := by
    intro id described
    obtain ⟨stage, found, factor⟩ := settled.stages id described
    have stands : racks.Stands name (.stage id) := ⟨stage, found⟩
    have kept := turned.node?_keyAt sound stands
    rw [keyAt_stage found] at kept
    exact ⟨stage, (turned.stages name id).trans found, kept.trans factor⟩

end Racks

namespace Transport

/-- The nodes of the instruments of a project. -/
def network (transport : Transport τ) (project : Project τ) : List NodeKey :=
  project.holders.flatMap (Racks.held transport.racks.find?)

/-- A project stands in the graph: its boards, and the voices of calls from a key on. -/
structure Laid [Fourier] (transport : Transport τ) (project : Project τ) (start : Nat)
    (calls : List (Call τ)) : Prop where
  sound : transport.Sound
  settled : ∀ name instrument, project.instruments.find? name = some instrument →
    Racks.Settled transport.racks.find? name transport.graph instrument.Describes
      (instrument.board (project.cablesOf name))
  oscillators : ∀ name instrument, project.instruments.find? name = some instrument →
    ∀ id partials, instrument.oscillators.find? id = some partials →
      ∃ ring, transport.ring? name id = some ring ∧ ring.oscillator.partials = partials ∧
        ring.signals = instrument.signals ∧ ring.weights = instrument.weights id
  gains : ∀ name instrument, project.instruments.find? name = some instrument →
    ∀ id factor, instrument.gains.find? id = some factor →
      ∃ stage, Racks.stage? transport.racks.find? name id = some stage ∧ stage.factor = factor
  voices : ∀ name id ring, transport.ring? name id = some ring →
    ring.oscillator.nodes =
        (Call.voicesOf name id (Call.placed start calls)).flatMap Call.nodesOf ∧
      ring.oscillator.generators =
        (Call.voicesOf name id (Call.placed start calls)).flatMap Call.generatorsOf
  described : ∀ call ∈ calls, ∃ instrument, project.instruments.find? call.name = some instrument ∧
    instrument.oscillators.contains call.id
  shows : ∀ p ∈ Call.placed start calls,
    transport.graph.Shows transport.graph.rate p.1 p.2.sheet
  low : ∀ name site, Racks.Stands transport.racks.find? name site →
    Racks.keyAt transport.racks.find? name site < start
  /-- What is connected before the boards touches nothing that came later. -/
  connections : ∃ base, transport.graph.connections = base ++
      transport.boardWires project.cablesOf project.instruments.entries ++
        (Call.placed start calls).flatMap (Racks.wires transport.racks.find?) ∧
    (∀ c ∈ base, c.source < start ∧ c.target < start) ∧
    ∀ name instrument, project.instruments.find? name = some instrument → ∀ site,
      Racks.Stands transport.racks.find? name site → site.Speaks →
        ∀ c ∈ base, c.source ≠ Racks.keyAt transport.racks.find? name site

variable {transport : Transport τ} {project : Project τ}

theorem mem_network {key : NodeKey} : key ∈ transport.network project ↔
    ∃ holder ∈ project.holders, key ∈ Racks.held transport.racks.find? holder := by
  simp [network]

theorem mem_network_of_ring {name id : String} {instrument : Instrument} {ring : RingOscillator}
    (described : project.instruments.find? name = some instrument)
    (listed : instrument.oscillators.contains id) (found : transport.ring? name id = some ring)
    {key : NodeKey} (mem : key ∈ ring.keys) : key ∈ transport.network project :=
  mem_network.mpr ⟨.ring name id,
    Project.mem_holders.mpr ⟨name, instrument, described, .inl ⟨id, listed, rfl⟩⟩,
    (Racks.mem_held_ring found).mpr mem⟩

theorem owns_of_mem_network {key : NodeKey} (mem : key ∈ transport.network project) :
    ∃ name instrument, project.instruments.find? name = some instrument ∧
      Racks.Owns transport.racks.find? name key := by
  obtain ⟨holder, listed, held⟩ := mem_network.mp mem
  obtain ⟨name, instrument, described, ⟨id, -, rfl⟩ | ⟨id, -, rfl⟩⟩ := Project.mem_holders.mp listed
  · exact ⟨name, instrument, described, _, rfl, held⟩
  · exact ⟨name, instrument, described, _, rfl, held⟩

variable [Fourier]

section Reconciling

variable [TimeAxis τ]

/-- To reconcile with a project that is to be played lays it out. -/
theorem Sound.laid (sound : transport.Sound) (playing : project.playing = true)
    (plugged : project.Plugged)
    (agrees : ∀ name instrument, project.instruments.find? name = some instrument →
      transport.Agrees name instrument) :
    (transport.reconcile project).state.Laid project (transport.cleared project).graph.nodes.size
      (playable transport.graph.rate ((transport.cleared project).calls project)) := by
  obtain ⟨scheduled, -, result_sound, rate, nodes, connections, turned⟩ :=
    sound.reconcile_playing playing
  have cleared := sound.clear project
  obtain ⟨base, wired⟩ := sound.wired_cleared plugged agrees
  obtain ⟨result, is_result⟩ : ∃ result, result = (transport.reconcile project).state := ⟨_, rfl⟩
  rw [← is_result] at result_sound rate nodes connections turned ⊢
  have view (key : NodeKey) : result.graph.node? key = scheduled.node? key := by
    simp only [Graph.node?, nodes]
  constructor
  case sound => exact result_sound
  case settled =>
    intro name instrument described
    exact (turned.settled cleared.sound
      (wired.settled name instrument (Roster.find?_eq_some_iff.mp described))).of_same view
  case oscillators =>
    intro name instrument described id partials listed
    obtain ⟨ring, found, same_partials, signals, weights⟩ := cleared.ring described listed
    obtain ⟨played, found_played, bare, -⟩ := turned.rings name id ring found
    refine ⟨played, found_played, ?_, ?_, ?_⟩
    · rw [← same_partials]
      exact congrArg (·.oscillator.partials) bare
    · rw [← signals]
      exact congrArg (·.signals) bare
    · rw [← weights]
      exact congrArg (·.weights) bare
  case gains =>
    intro name instrument described id factor listed
    obtain ⟨rack, found_rack, full⟩ := cleared.furnished name instrument described
    obtain ⟨stage, found, same_factor⟩ := full.gains id factor listed
    refine ⟨stage, ?_, same_factor⟩
    rw [turned.stages, Racks.stage?, found_rack]
    exact found
  case voices =>
    intro name id ring found
    obtain ⟨old, -, -, nodes, generators⟩ := sound.ring_of_turned turned found
    exact ⟨nodes, generators⟩
  case described =>
    intro call mem
    unfold playable at mem
    split at mem
    · exact sound.described_of_mem_calls mem
    · cases mem
  case shows =>
    intro p mem i component listed
    obtain ⟨node, found, shown⟩ := turned.new p mem i component listed
    rw [cleared.rate, ← rate] at shown
    exact ⟨node, (view _).trans found, shown⟩
  case low =>
    intro name site stands
    rw [turned.keyAt]
    exact cleared.sound.keyAt_lt ((turned.stands site).mp stands)
  case connections =>
    obtain ⟨gone, is_gone⟩ : ∃ gone, gone = Racks.voices (transport.cleared project).racks.find?
        project.instruments.names := ⟨_, rfl⟩
    have boards := wired.connections_filter fun name site stands =>
      is_gone ▸ cleared.sound.keyAt_not_voiced stands project.instruments.names
    have same_boards : result.boardWires project.cablesOf project.instruments.entries =
        (transport.cleared project).boardWires project.cablesOf project.instruments.entries :=
      boardWires_congr project.cablesOf fun entry _ => turned.keyAt entry.1
    refine ⟨base.filter fun c => c.source ∉ gone ∧ c.target ∉ gone, ?_, ?_, ?_⟩
    · rw [connections, turned.connections, ← is_gone, boards, same_boards, turned.wires]
    · intro c mem
      have old : c ∈ (transport.cleared project).graph.connections := by
        rw [wired.connections]
        exact List.mem_append_left _ (List.mem_filter.mp mem).1
      obtain ⟨⟨_, source, _⟩, ⟨_, target, _⟩, _⟩ :=
        Graph.admits_iff.mp (cleared.sound.wellFormed.admitted c old)
      exact ⟨Graph.lt_size_of_node? source, Graph.lt_size_of_node? target⟩
    · intro name instrument described site stands speaks c mem
      rw [turned.keyAt]
      exact wired.fresh name instrument (Roster.find?_eq_some_iff.mp described) site
        ((turned.stands site).mp stands) speaks c (List.mem_filter.mp mem).1

end Reconciling

/-! ### What touches the nodes of a project -/

/-- Nodes of instruments are counted once, and the destination is none of them. -/
theorem Sound.nodup_network (sound : transport.Sound) (project : Project τ) :
    (Graph.destination :: transport.network project).Nodup := by
  refine List.nodup_cons.mpr ⟨fun mem => ?_, List.nodup_flatMap.mpr ⟨?_, ?_⟩⟩
  · obtain ⟨holder, -, held⟩ := mem_network.mp mem
    exact sound.ledger.inner holder held
  · exact fun holder _ => sound.ledger.once holder
  · refine project.nodup_holders.imp fun {holder other} differs key mem mem' => differs ?_
    exact sound.ledger.apart holder other key mem mem'

/-- The connections that touch nodes of the instruments of a project, in order. -/
def wiring (transport : Transport τ) (project : Project τ) : List Connection :=
  transport.graph.connections.filter fun c =>
    c.source ∈ transport.network project ∨ c.target ∈ transport.network project

variable {start : Nat} {calls : List (Call τ)}

theorem Laid.stands (laid : transport.Laid project start calls) {name : String}
    {instrument : Instrument} (described : project.instruments.find? name = some instrument)
    {site : Site} (listed : instrument.Describes site) :
    Racks.Stands transport.racks.find? name site :=
  (laid.settled name instrument described).stands listed

/-- A site that an instrument describes is one of the nodes of its project. -/
theorem Laid.keyAt_mem (laid : transport.Laid project start calls) {name : String}
    {instrument : Instrument} (described : project.instruments.find? name = some instrument)
    {site : Site} (listed : instrument.Describes site) (inner : site ≠ .destination) :
    Racks.keyAt transport.racks.find? name site ∈ transport.network project := by
  have stands := laid.stands described listed
  cases site with
  | output id =>
    obtain ⟨ring, found⟩ := stands
    rw [Racks.keyAt_output found]
    exact mem_network_of_ring described listed found List.mem_cons_self
  | control id =>
    obtain ⟨ring, found⟩ := stands
    rw [Racks.keyAt_control found]
    exact mem_network_of_ring described listed found (RingOscillator.control_mem_keys _)
  | stage id =>
    obtain ⟨stage, found⟩ := stands
    rw [Racks.keyAt_stage found]
    exact mem_network.mpr ⟨.stage name id,
      Project.mem_holders.mpr ⟨name, instrument, described, .inr ⟨id, listed, rfl⟩⟩,
      (Racks.mem_held_stage found).mpr rfl⟩
  | destination => exact absurd rfl inner

/-- So are the nodes of a voice. -/
theorem Laid.voice_mem (laid : transport.Laid project start calls) {p : Nat × Call τ}
    (placed : p ∈ Call.placed start calls) {key : NodeKey} (mem : key ∈ Call.nodesOf p) :
    key ∈ transport.network project := by
  obtain ⟨instrument, described, listed⟩ := laid.described p.2 (Call.mem_of_mem_placed placed)
  obtain ⟨ring, found, -⟩ :=
    (laid.settled p.2.name instrument described).rings p.2.id (.inl listed)
  refine mem_network_of_ring described listed found
    (RingOscillator.mem_keys_of_counted ?_)
  rw [(laid.voices p.2.name p.2.id ring found).1]
  refine List.mem_flatMap.mpr ⟨p, List.mem_filter.mpr ⟨placed, ?_⟩, mem⟩
  simp [Call.isFor]

/-- Voices have only nodes from the start on. -/
theorem Laid.le_of_counted (laid : transport.Laid project start calls) {name id : String}
    {ring : RingOscillator} (found : transport.ring? name id = some ring) {key : NodeKey}
    (counted : key ∈ ring.oscillator.nodes) : start ≤ key := by
  rw [(laid.voices name id ring found).1] at counted
  obtain ⟨p, voiced, mem⟩ := List.mem_flatMap.mp counted
  have first := (Call.bounds_of_mem_placed (List.mem_filter.mp voiced).1).1
  exact Nat.le_trans first (mem_voiceNodes.mp mem).1

/-- Old connections touch no node of the project. -/
theorem Laid.apart (laid : transport.Laid project start calls) {c : Connection}
    (mem : c ∈ transport.graph.connections) (source_lt : c.source < start)
    (target_lt : c.target < start)
    (fresh : ∀ name instrument, project.instruments.find? name = some instrument → ∀ site,
      Racks.Stands transport.racks.find? name site → site.Speaks →
        c.source ≠ Racks.keyAt transport.racks.find? name site) :
    c.source ∉ transport.network project ∧ c.target ∉ transport.network project := by
  have not_owned (name : String) (instrument : Instrument)
      (described : project.instruments.find? name = some instrument) :
      ¬ Racks.Owns transport.racks.find? name c.source := by
    intro owned
    rcases owned.ring_or_stage with ⟨id, ring, found, held⟩ | ⟨id, stage, found, held⟩
    · rcases RingOscillator.mem_keys.mp held with output | driven | counted
      · refine fresh name instrument described (.output id) ⟨ring, found⟩ trivial ?_
        rw [output, Racks.keyAt_output found]
      · have target := laid.sound.controls c mem name id ring found driven
        exact Nat.not_le.mpr target_lt (laid.le_of_counted found target)
      · exact Nat.not_le.mpr source_lt (laid.le_of_counted found counted)
    · refine fresh name instrument described (.stage id) ⟨stage, found⟩ trivial ?_
      rw [held, Racks.keyAt_stage found]
  constructor
  · intro inside
    obtain ⟨name, instrument, described, owned⟩ := owns_of_mem_network inside
    exact not_owned name instrument described owned
  · intro inside
    obtain ⟨name, instrument, described, owned⟩ := owns_of_mem_network inside
    obtain ⟨place, source, target⟩ := laid.sound.wired c mem
    rcases target with destined | target
    · obtain ⟨holder, -, held⟩ := owned
      rw [destined] at held
      exact laid.sound.ledger.inner holder held
    · rw [Racks.Sound.owner_unique laid.sound target owned] at source
      exact not_owned name instrument described source

theorem Laid.mem_boardWires (laid : transport.Laid project start calls) {c : Connection}
    (mem : c ∈ transport.boardWires project.cablesOf project.instruments.entries) :
    c.source ∈ transport.network project ∧
      (c.target = Graph.destination ∨ c.target ∈ transport.network project) := by
  obtain ⟨⟨name, instrument⟩, entry, mem⟩ := List.mem_flatMap.mp mem
  obtain ⟨wire, listed, rfl⟩ := List.mem_map.mp mem
  have described := Roster.find?_eq_some_iff.mpr entry
  obtain ⟨from_site, speaks, to_site⟩ :=
    instrument.within_of_mem_board (project.cablesOf name) wire listed
  constructor
  · refine laid.keyAt_mem described from_site ?_
    intro destined
    rw [destined] at speaks
    exact speaks
  · by_cases destined : wire.target = .destination
    · left
      show Racks.keyAt _ name wire.target = _
      rw [destined]
      rfl
    · exact .inr (laid.keyAt_mem described to_site destined)

theorem Laid.mem_wires (laid : transport.Laid project start calls) {p : Nat × Call τ}
    (placed : p ∈ Call.placed start calls) {c : Connection}
    (mem : c ∈ Racks.wires transport.racks.find? p) :
    c.source ∈ transport.network project ∧ c.target ∈ transport.network project := by
  obtain ⟨instrument, described, listed⟩ := laid.described p.2 (Call.mem_of_mem_placed placed)
  have site_mem (site : Site) (listed : instrument.Describes site) (inner : site ≠ .destination) :=
    laid.keyAt_mem described listed inner
  have output : Racks.output transport.racks.find? p.2.name p.2.id ∈ transport.network project :=
    site_mem (.output p.2.id) listed (by simp)
  have control : Racks.control transport.racks.find? p.2.name p.2.id ∈ transport.network project :=
    site_mem (.control p.2.id) listed (by simp)
  obtain ⟨source, target⟩ := ends_of_mem_voiceWires mem
  constructor
  · rcases source with same | voiced
    · exact same ▸ control
    · exact laid.voice_mem placed voiced
  · rcases target with voiced | ⟨same, -⟩
    · exact laid.voice_mem placed voiced
    · exact same ▸ output

/-- The wiring of a project is that of its boards and of its voices, and nothing else. -/
theorem Laid.wiring_eq (laid : transport.Laid project start calls) :
    transport.wiring project = transport.boardWires project.cablesOf project.instruments.entries ++
      (Call.placed start calls).flatMap (Racks.wires transport.racks.find?) := by
  obtain ⟨base, connections, low, fresh⟩ := laid.connections
  have outer : base.filter (fun c => c.source ∈ transport.network project ∨
      c.target ∈ transport.network project) = [] := by
    rw [List.filter_eq_nil_iff]
    intro c mem
    have listed : c ∈ transport.graph.connections := by
      rw [connections, List.append_assoc]
      exact List.mem_append_left _ mem
    obtain ⟨source, target⟩ := laid.apart listed (low c mem).1 (low c mem).2
      fun name instrument described site stands speaks =>
        fresh name instrument described site stands speaks c mem
    simp [source, target]
  have boards : (transport.boardWires project.cablesOf project.instruments.entries).filter
      (fun c => c.source ∈ transport.network project ∨ c.target ∈ transport.network project) =
        transport.boardWires project.cablesOf project.instruments.entries := by
    rw [List.filter_eq_self]
    exact fun c mem => decide_eq_true (.inl (laid.mem_boardWires mem).1)
  have voices : ((Call.placed start calls).flatMap (Racks.wires transport.racks.find?)).filter
      (fun c => c.source ∈ transport.network project ∨ c.target ∈ transport.network project) =
        (Call.placed start calls).flatMap (Racks.wires transport.racks.find?) := by
    rw [List.filter_eq_self]
    intro c mem
    obtain ⟨p, placed, wired⟩ := List.mem_flatMap.mp mem
    exact decide_eq_true (.inl (laid.mem_wires placed wired).1)
  rw [wiring, connections, List.filter_append, List.filter_append, outer, boards, voices,
    List.nil_append]

/-- It stays among the nodes of the project, but for what goes to the destination. -/
theorem Laid.within (laid : transport.Laid project start calls) {c : Connection}
    (mem : c ∈ transport.wiring project) : c.source ∈ transport.network project ∧
      (c.target = Graph.destination ∨ c.target ∈ transport.network project) := by
  rw [laid.wiring_eq, List.mem_append] at mem
  rcases mem with mem | mem
  · exact laid.mem_boardWires mem
  · obtain ⟨p, placed, wired⟩ := List.mem_flatMap.mp mem
    obtain ⟨source, target⟩ := laid.mem_wires placed wired
    exact ⟨source, .inr target⟩

/-- No generator lies outside of the instruments of the project. -/
theorem Laid.generator_mem (laid : transport.Laid project start calls) {key : NodeKey}
    (generator : transport.graph.kind? key = some .generator) :
    key ∈ transport.network project := by
  obtain ⟨name, id, ring, found, mem⟩ := laid.sound.counted_of_generator generator
  rw [(laid.voices name id ring found).2] at mem
  obtain ⟨p, voiced, member⟩ := List.mem_flatMap.mp mem
  exact laid.voice_mem (List.mem_filter.mp voiced).1
    ((voiceGenerators_sublist _ _).subset member)

end Transport

end Patchbay
