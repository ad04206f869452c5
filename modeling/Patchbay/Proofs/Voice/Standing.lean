import Patchbay.Proofs.Voice.Sharing
import Patchbay.Proofs.Voice.Voicing

/-!
# Voices that stand

A voice is nodes with consecutive keys, wired in one pattern. What is done to a graph elsewhere
leaves these nodes and their connections alone: rendering moves phases, and arming opens and closes
windows, but a voice stands as it was built.
-/
namespace Patchbay

variable {τ : Type}

/-! ### Nodes at any time -/

/-- A node but for its phase and its window. -/
def Node.timeless : Node τ → Node τ :=
  Node.mapGenerator fun generator =>
    { generator with player := generator.player.rewind, starts := none, stops := none }

theorem Node.timeless_resting (node : Node τ) : node.resting.timeless = node.timeless := by
  cases node <;> rfl

theorem Node.timeless_mapGenerator {f : Generator τ → Generator τ}
    (window : ∀ g, (Node.generator (f g)).timeless = (Node.generator g).timeless) (node : Node τ) :
    (node.mapGenerator f).timeless = node.timeless := by
  cases node with
  | generator g => exact window g
  | _ => rfl

theorem Node.timeless_eq_gain_iff {node : Node τ} {factor : Float32} :
    node.timeless = .gain factor ↔ node = .gain factor := by
  cases node <;> simp [timeless, mapGenerator]

/-- A generator plays the wave of a timbre, at whatever phase. -/
def Generator.Sings [Fourier] (rate : Float32) (timbre : Partials) (generator : Generator τ) :
    Prop :=
  ∃ (made : Partials) (wave : Wave Float32), made.StandsFor timbre ∧
    made.waveAt rate = .ok wave ∧ generator.player.wave = wave

/-- A node is what a component of a voice says, at whatever time. -/
def Component.Kept [Fourier] (rate : Float32) : Component τ → Node τ → Prop
  | .generator timbre frequency _ _, node =>
    ∃ g, node = .generator g ∧ g.Sings rate timbre ∧ g.frequency = frequency
  | .gain factor, node => node = .gain factor

namespace Component

variable [Fourier] {rate : Float32} {component : Component τ} {node other : Node τ}

theorem Shown.kept (shown : component.Shown rate node) : component.Kept rate node := by
  cases component with
  | generator timbre frequency =>
    obtain ⟨g, rfl, ⟨made, wave, stands, same, plays⟩, tuned, -⟩ := shown
    exact ⟨g, rfl, ⟨made, wave, stands, same, by rw [plays]; rfl⟩, tuned⟩
  | gain factor => exact shown

theorem Kept.congr (kept : component.Kept rate node) (same : other.timeless = node.timeless) :
    component.Kept rate other := by
  cases component with
  | generator timbre frequency =>
    obtain ⟨g, rfl, ⟨made, wave, stands, placed, plays⟩, tuned⟩ := kept
    cases other with
    | generator other =>
      simp only [Node.timeless, Node.mapGenerator, Node.generator.injEq, Generator.mk.injEq,
        Player.rewind, Player.mk.injEq] at same
      obtain ⟨-, ⟨wave_eq, -⟩, frequency_eq, -⟩ := same
      exact ⟨other, rfl, ⟨made, wave, stands, placed, wave_eq.trans plays⟩,
        frequency_eq.trans tuned⟩
    | _ => cases same
  | gain factor =>
    cases kept
    exact Node.timeless_eq_gain_iff.mp same

end Component

namespace Graph

/-! ### Operations elsewhere -/

/-- Does an operation turn a knob of a node, or take the node out? -/
def Operation.changes : Operation τ → NodeKey → Bool
  | .setValue key _ _, other => key == other
  | .remove key, other => key == other
  | _, _ => false

variable {graph after : Graph τ}

section Perform

variable [TimeAxis τ] [Fourier]

/-- An operation that does not change a node leaves it but for its phase and its window. -/
theorem timeless_perform (well : graph.WellFormed) {operation : Operation τ} {key : NodeKey}
    (issued : key < graph.nodes.size) (spared : operation.changes key = false) :
    ((graph.perform operation).node? key).map Node.timeless =
      (graph.node? key).map Node.timeless := by
  have window {f : Generator τ → Generator τ}
      (armed : (graph.perform operation).node? key = (graph.node? key).map (Node.mapGenerator f))
      (window : ∀ g, (Node.generator (f g)).timeless = (Node.generator g).timeless) :
      ((graph.perform operation).node? key).map Node.timeless =
        (graph.node? key).map Node.timeless := by
    rw [armed, Option.map_map]
    exact Option.map_congr fun node _ => Node.timeless_mapGenerator window node
  rcases well.node?_perform issued operation with ⟨-, same⟩ | ⟨rfl, -⟩ | ⟨knob, value, rfl, -⟩ |
    ⟨time, rfl, started⟩ | ⟨time, rfl, stopped⟩ | ⟨frames, samples, rfl, rendered⟩
  · rw [same]
  · simp [Operation.changes] at spared
  · simp [Operation.changes] at spared
  · exact window started fun _ => rfl
  · exact window stopped fun _ => rfl
  · generalize graph.perform (.render frames) = after at rendered ⊢
    exact (elapsed_render rendered).phases.map_eq _ Node.timeless_resting key

end Perform

/-! ### A voice in its graph -/

/-- Where a voice stands: its nodes from the first key on, its output stage and its control. -/
structure Site where
  base : NodeKey
  /-- The number of branches. -/
  count : Nat
  output : NodeKey
  control : NodeKey
  deriving Repr, DecidableEq

namespace Site

/-- The nodes of the voice. -/
def nodes (site : Site) : List NodeKey :=
  voiceNodes site.base site.count

/-- The node that goes to the output stage. -/
def last (site : Site) : NodeKey :=
  site.base + 3 * site.count

/-- The connections of the voice. -/
def wires (site : Site) : List Connection :=
  voiceWires site.output site.control site.base site.count

/-- Does a connection end in the voice, or lead from it to the output stage? -/
def touches (site : Site) (c : Connection) : Bool :=
  c.target ∈ site.nodes || (c.source ∈ site.nodes && c.target == site.output)

/-- An operation spares a voice: it leaves its connections, asks for no others that would touch it,
and does not change its nodes. -/
structure Spared (site : Site) (operation : Operation τ) : Prop where
  leaves : ∀ c ∈ site.wires, operation.leaves c
  asks : ∀ c ∈ operation.asked, site.touches c = false
  changes : ∀ key ∈ site.nodes, operation.changes key = false

/-- The nodes of a voice are what its components say, and no other connections touch it. -/
structure Stands [Fourier] (site : Site) (graph : Graph τ) (components : List (Component τ)) :
    Prop where
  wires : graph.connections.filter site.touches = site.wires
  outside : site.output < site.base
  issued : site.last < graph.nodes.size
  count : components.length = 1 + 3 * site.count
  nodes : ∀ (i : Nat) component, components[i]? = some component →
    ∃ node, graph.node? (site.base + i) = some node ∧ component.Kept graph.rate node

variable {site : Site} {components : List (Component τ)}

theorem touches_of_mem_wires {c : Connection} (mem : c ∈ site.wires) : site.touches c = true := by
  obtain ⟨-, within | ⟨target, source⟩⟩ := ends_of_mem_voiceWires mem
  · simp [touches, nodes, within]
  · simp [touches, nodes, source, target]

theorem mem_nodes {key : NodeKey} : key ∈ site.nodes ↔ site.base ≤ key ∧ key ≤ site.last :=
  mem_voiceNodes

variable [TimeAxis τ] [Fourier]

/-- A voice stands through every operation that spares it. -/
theorem Stands.perform (stands : site.Stands graph components) (well : graph.WellFormed)
    {operation : Operation τ} (spared : site.Spared operation) :
    site.Stands (graph.perform operation) components where
  wires := by
    cases taken : graph.takes operation with
    | false =>
      rcases perform_of_refused taken with same | ⟨event, logged⟩
      · rw [same, stands.wires]
      · rw [logged]
        exact stands.wires
    | true =>
      have asked : (operation.asked.filter (· ∉ graph.connections)).filter site.touches = [] := by
        refine List.filter_eq_nil_iff.mpr fun c mem => ?_
        simp [spared.asks c (List.mem_of_mem_filter mem)]
      have left : (graph.connections.filter operation.leaves).filter site.touches = site.wires := by
        rw [List.filter_comm, stands.wires]
        exact List.filter_eq_self.mpr spared.leaves
      rw [connections_perform taken, List.filter_append, left, asked, List.append_nil]
  outside := stands.outside
  issued := stands.issued.trans_le (Succeeds.perform graph operation).size
  count := stands.count
  nodes := by
    intro i component here
    obtain ⟨node, found, kept⟩ := stands.nodes i component here
    have within : i < components.length := (List.getElem?_eq_some_iff.mp here).1
    have mem : site.base + i ∈ site.nodes := by
      have := stands.count
      rw [mem_nodes, last]
      simp only [NodeKey] at *
      omega
    have same := timeless_perform well (lt_size_of_node? found) (spared.changes _ mem)
    rw [found] at same
    obtain ⟨other, lives, timeless⟩ := Option.map_eq_some_iff.mp same
    exact ⟨other, lives, (graph.ages_perform operation).rate.symm ▸ kept.congr timeless⟩

/-- A voice stands through everything that is done elsewhere. -/
theorem Stands.run (stands : site.Stands graph components) (well : graph.WellFormed)
    {operations : List (Operation τ)} (spared : ∀ operation ∈ operations, site.Spared operation) :
    site.Stands (operations.foldl Graph.perform graph) components := by
  induction operations generalizing graph with
  | nil => exact stands
  | cons operation rest ih =>
    exact ih (stands.perform well (spared operation List.mem_cons_self))
      (well.perform operation) fun other mem => spared other (List.mem_cons_of_mem _ mem)

end Site

theorem ChangedFrom.succeeds (changed : graph.ChangedFrom graph.nodes.size after) :
    graph.Succeeds after where
  size := changed.size
  kind := fun key lt => .inl (congrArg (Option.map Node.kind) (changed.old key lt))

end Graph

namespace RingOscillator

/-- Where the next voice of a ring will stand. -/
def site (ring : RingOscillator) (graph : Graph τ) : Graph.Site :=
  ⟨graph.nodes.size, ring.branches.length, ring.oscillator.output, ring.oscillator.control⟩

/-- The nodes of the next voice of a ring. -/
def voiceSheet (ring : RingOscillator) (τ : Type) (frequency : Float32) : Sheet τ :=
  ⟨ring.oscillator.partials, ring.branches, frequency, none, none⟩

/-- A voice that was just built stands, and nothing else was added. -/
theorem build_stands [Fourier] {ring : RingOscillator} {graph : Graph τ}
    (playable : ring.Playable graph) (frequency : Float32) :
    ∃ built after, ring.build graph frequency = .ok (
        ⟨graph.nodes.size, voiceGenerators graph.nodes.size ring.branches.length⟩, built, after) ∧
      (ring.site graph).Stands after (ring.voiceSheet τ frequency).components ∧
      after.nodes.size = graph.nodes.size + (1 + 3 * ring.branches.length) ∧
      after.connections = graph.connections ++ (ring.site graph).wires ∧ after.WellFormed := by
  obtain ⟨built, after, nodes, build, shown, grown, -⟩ := build_spec playable frequency
  have length : (ring.voiceSheet τ frequency).components.length =
      1 + 3 * ring.branches.length := Sheet.length_components _
  have size : after.nodes.size = graph.nodes.size + (1 + 3 * ring.branches.length) := by
    rw [grown.size, ← shown.length_eq]
    exact congrArg _ length
  refine ⟨built, after, build, ?_, size, grown.connections, grown.wellFormed⟩
  constructor
  case outside =>
    obtain ⟨factor, output⟩ := playable.output
    exact Graph.lt_size_of_node? output
  case issued =>
    rw [size, Graph.Site.last, site]
    simp only [NodeKey]
    omega
  case count => exact length
  case wires =>
    have none_before : graph.connections.filter (ring.site graph).touches = [] := by
      refine List.filter_eq_nil_iff.mpr fun c mem touched => ?_
      obtain ⟨source, target⟩ := playable.wellFormed.lt_size mem
      simp only [Graph.Site.touches, Graph.Site.mem_nodes, Bool.or_eq_true, Bool.and_eq_true,
        decide_eq_true_eq] at touched
      rcases touched with within | within
      · exact absurd target (Nat.not_lt.mpr within.1)
      · exact absurd source (Nat.not_lt.mpr within.1.1)
    rw [grown.connections, List.filter_append, none_before, List.nil_append]
    exact List.filter_eq_self.mpr fun c mem => Graph.Site.touches_of_mem_wires mem
  case nodes =>
    intro i component here
    obtain ⟨within, rfl⟩ := List.getElem?_eq_some_iff.mp here
    have within' : i < nodes.length := shown.length_eq ▸ within
    have fits := (List.forall₂_iff_get.mp shown).2 i within within'
    refine ⟨nodes[i], ?_, grown.rate ▸ fits.kept⟩
    rw [site, grown.node?_new, List.getElem?_eq_getElem within']

namespace Usage

/-! ### Rings that can play -/

/-- The output stage and the control of a ring are what they were made as, or gone for good. -/
structure Seated (used : Usage τ) : Prop where
  wellFormed : used.graph.WellFormed
  output_issued : used.ring.oscillator.output < used.graph.nodes.size
  control_issued : used.ring.oscillator.control < used.graph.nodes.size
  output : used.graph.kind? used.ring.oscillator.output = some .gain ∨
    used.graph.kind? used.ring.oscillator.output = none
  control : used.graph.kind? used.ring.oscillator.control = some .constant ∨
    used.graph.kind? used.ring.oscillator.control = none

variable {used next : Usage τ}

theorem Seated.move (seated : used.Seated) (well : next.graph.WellFormed)
    (succeeds : used.graph.Succeeds next.graph)
    (output : next.ring.oscillator.output = used.ring.oscillator.output)
    (control : next.ring.oscillator.control = used.ring.oscillator.control) : next.Seated := by
  have later {key : NodeKey} {kind : Option Kind} (issued : key < used.graph.nodes.size)
      (was : used.graph.kind? key = kind ∨ used.graph.kind? key = none) :
      next.graph.kind? key = kind ∨ next.graph.kind? key = none :=
    (succeeds.kind key issued).elim (fun same => same ▸ was) .inr
  constructor
  case wellFormed => exact well
  case output_issued => exact output ▸ seated.output_issued.trans_le succeeds.size
  case control_issued => exact control ▸ seated.control_issued.trans_le succeeds.size
  case output => exact output ▸ later seated.output_issued seated.output
  case control => exact control ▸ later seated.control_issued seated.control

theorem seated_create {graph : Graph τ} (well : graph.WellFormed) (timbre : Timbre) :
    (create graph timbre).Seated := by
  have output := graph.grown_add well (.gain 1.0) (by simp [Node.kind])
  have control := (graph.add (.gain 1.0)).2.grown_add output.wellFormed
    (.constant Oscillator.defaultFrequency) (by simp [Node.kind])
  have stage : (graph.add (.gain 1.0)).2.node? graph.nodes.size = some (.gain 1.0) := by
    simp [Graph.node?_add]
  have stage_lives := control.lives stage
  have control_lives :
      (create graph timbre).graph.node? (create graph timbre).ring.oscillator.control =
        some (.constant Oscillator.defaultFrequency) :=
    (Graph.node?_add ..).trans (if_pos rfl)
  constructor
  case wellFormed => exact control.wellFormed
  case output_issued => exact Graph.lt_size_of_node? stage_lives
  case control_issued => exact Graph.lt_size_of_node? control_lives
  case output => exact .inl (congrArg (Option.map Node.kind) stage_lives)
  case control => exact .inl (congrArg (Option.map Node.kind) control_lives)

theorem Seated.reported (seated : used.Seated) {graph : Graph τ}
    (reported : used.graph.Reported graph) : Seated { used with graph } :=
  seated.move (reported.wellFormed seated.wellFormed)
    (reported.changedFrom used.graph.nodes.size).succeeds rfl rfl

theorem Seated.setControl (seated : used.Seated) (value : Float32) (followsNote : Bool) :
    (used.put (used.ring.withOscillator used.graph fun oscillator graph =>
      ({ oscillator with followsNote },
        (graph.setValue oscillator.control .offset value).1))).Seated :=
  seated.move (seated.wellFormed.setValue _ _ _)
    (.of_kinds (Graph.setValue_rest ..).1 fun _ => Graph.kind?_setValue ..) rfl rfl

theorem Seated.free (seated : used.Seated) : (used.put (used.ring.free used.graph)).Seated := by
  obtain ⟨well, succeeds⟩ : (used.ring.oscillator.free used.graph).2.WellFormed ∧
      used.graph.Succeeds (used.ring.oscillator.free used.graph).2 := by
    refine List.foldlRecOn (motive := fun after : Graph τ =>
      after.WellFormed ∧ used.graph.Succeeds after) used.ring.oscillator.nodes _
        ⟨seated.wellFormed, .refl _⟩ fun after kept key _ => ?_
    exact ⟨kept.1.remove key, kept.2.trans (.remove after key)⟩
  exact seated.move well succeeds rfl rfl

variable [TimeAxis τ] [Fourier]

/-- Whatever is done with a ring, its output stage and its control stay or go for good. -/
theorem Seated.call (seated : used.Seated) (call : Call τ) : (used.call call).Seated := by
  cases call with
  | build frequency =>
    simp only [Usage.call]
    cases built : used.ring.build used.graph frequency with
    | error fault => exact seated
    | ok made =>
      obtain ⟨changed, -, -, output, control⟩ := changedFrom_build built
      exact seated.move (changed.wellFormed seated.wellFormed) changed.succeeds output control
  | schedule note position =>
    simp only [Usage.call]
    cases scheduled : used.ring.schedule used.graph note position with
    | error fault => exact seated
    | ok made =>
      obtain ⟨changed, output, control⟩ := changedFrom_schedule scheduled
      exact seated.move (changed.wellFormed seated.wellFormed) changed.succeeds output control
  | free => exact seated.free
  | assign | setPartial | erasePartial =>
    exact seated.move seated.wellFormed (.refl _) rfl rfl
  | modulate signals weights =>
    have reported : used.graph.Reported
        (used.ring.modulate used.graph (signals.map (·.1)) weights).2 := by
      simp only [modulate]
      split
      · exact .refl _
      · exact used.graph.reported_log _
    exact (seated.reported reported).move (reported.wellFormed seated.wellFormed) (.refl _) rfl rfl
  | wave =>
    simp only [Usage.call]
    cases asked : used.ring.oscillator.wave used.graph with
    | error fault => exact seated
    | ok handed =>
      simp only [Oscillator.wave, Fault.bind_ok_iff] at asked
      obtain ⟨_, given, same⟩ := asked
      cases same
      have reported := WaveMemo.reported_wave given
      exact (seated.reported reported).move (reported.wellFormed seated.wellFormed) (.refl _) rfl
        rfl
  | follow => exact seated.setControl 0.0 true
  | setFrequency frequency => exact seated.setControl frequency false
  | elsewhere operation =>
    exact seated.move (seated.wellFormed.perform operation)
      (.perform used.graph operation) rfl rfl

theorem Seated.run (seated : used.Seated) (calls : List (Call τ)) :
    (calls.foldl Usage.call used).Seated := by
  induction calls generalizing used with
  | nil => exact seated
  | cons first rest ih => exact ih (seated.call first)

omit [TimeAxis τ]

/-- A wave that is kept was made at the rate of the graph. -/
theorem Sound.made (sound : used.Sound) {memo : WaveMemo} (kept : used.ring.Keeps memo) :
    memo.Made used.graph.rate := by
  obtain ⟨seat, found⟩ : ∃ seat, used.ring.memoAt seat = some memo := by
    rcases kept with carrier | branch
    · exact ⟨.carrier, carrier⟩
    · obtain ⟨index, found⟩ := List.getElem?_of_mem branch
      exact ⟨.branch index, by rw [memoAt, found, Option.join_some]⟩
  obtain ⟨faithful, rate⟩ := (sound.shares.recalls seat).faithful memo found
  exact ⟨rate, rate ▸ faithful.made⟩

/-- Where the nodes of a ring live and buffers can be allocated, voices can be built. -/
theorem Seated.playable (seated : used.Seated) (sound : used.Sound)
    (output : used.graph.contains used.ring.oscillator.output)
    (control : used.graph.contains used.ring.oscillator.control)
    (fits : binCount used.graph.rate ≤ Partials.maxBins) : used.ring.Playable used.graph where
  wellFormed := seated.wellFormed
  fits := fits
  kept := fun _ => sound.made
  control := by
    have lives := Graph.contains_eq_isSome_kind? used.graph used.ring.oscillator.control ▸ control
    have kind := seated.control.resolve_right (Option.isSome_iff_ne_none.mp lives)
    obtain ⟨node, found, same⟩ := Option.map_eq_some_iff.mp kind
    cases node <;> cases same
    exact ⟨_, found⟩
  output := by
    have lives := Graph.contains_eq_isSome_kind? used.graph used.ring.oscillator.output ▸ output
    have kind := seated.output.resolve_right (Option.isSome_iff_ne_none.mp lives)
    obtain ⟨node, found, same⟩ := Option.map_eq_some_iff.mp kind
    cases node <;> cases same
    exact ⟨_, found⟩

/-- Where no buffer can be allocated, no wave is kept and no voice is built. -/
theorem Sound.build_eq_error (sound : used.Sound)
    (large : Partials.maxBins < binCount used.graph.rate) (frequency : Float32) :
    used.ring.build used.graph frequency =
      .error (.bufferTooLarge (binCount used.graph.rate)) := by
  refine RingOscillator.build_eq_error large (Option.eq_none_iff_forall_ne_some.mpr ?_) frequency
  intro memo kept
  have made := (sound.made (.inl kept)).2
  simp [Partials.waveAt, Partials.place_eq_error large, bind, Except.bind] at made

end Usage

end RingOscillator

end Patchbay
