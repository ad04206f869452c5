import Patchbay.Proofs.Graph.Playback
import Patchbay.Proofs.Voice.Standing

/-!
# A voice is a product

The stages of a voice multiply the carrier by one factor after another, each factor one plus a
weighted modulator. The product is what the wiring comes to once it is planned and rendered, for
any number of branches, and the output stage takes it from a single connection.
-/
namespace Patchbay

open Relation (ReflTransGen TransGen)

variable {τ : Type}

open Number

/-- To add up signals that are equal but for the sign of zero gives the same. -/
theorem total_congr_sameValue {signal other : NodeKey → Float32} {links : List Link}
    (same : ∀ link ∈ links, SameValue (signal link.source) (other link.source)) :
    total signal links = total other links := by
  have run (sum : Float32) (start : sum ≠ -0.0) :
      links.foldl (fun sum link => sum + signal link.source) sum =
        links.foldl (fun sum link => sum + other link.source) sum := by
    induction links generalizing sum with
    | nil => rfl
    | cons link rest ih =>
      have first : sum + signal link.source = sum + other link.source := by
        rcases same link List.mem_cons_self with equal | ⟨null, null'⟩
        · rw [equal]
        · rw [add_null null start, add_null null' start]
      rw [List.foldl_cons, List.foldl_cons, first]
      exact ih (fun other mem => same other (List.mem_cons_of_mem _ mem)) _
        (add_ne_negative_zero start _)
  refine run 0.0 fun equal => ?_
  exact absurd (congrArg Float32.toBits equal) (by decide)

/-! ### Products -/

/-- What a stage gives for the signal of the chain and for a weight and its modulator. Whatever is
connected to an inlet is added up from zero. -/
def stageSample (chain : Float32) (factor : Float32 × Float32) : Float32 :=
  (0.0 + chain) * (1.0 + (0.0 + (0.0 + factor.2) * (factor.1 + 0.0)))

/-- The product of a carrier with factors, each given as a weight and its modulator. -/
def product (carrier : Float32) (factors : List (Float32 × Float32)) : Float32 :=
  factors.foldl (fun chain factor => chain * (1.0 + factor.1 * factor.2)) carrier

theorem stageSample_sameValue {chain other : Float32} (same : SameValue chain other)
    (factor : Float32 × Float32) :
    SameValue (stageSample chain factor) (other * (1.0 + factor.1 * factor.2)) := by
  refine SameValue.mul ((sameValue_zero_add chain).trans same) (.add_left 1.0 ?_)
  refine (sameValue_zero_add _).trans ?_
  rw [mul_comm_single factor.1]
  exact .mul (sameValue_zero_add _) (sameValue_add_null _ null_zero)

/-- Stages in a row come to the product. -/
theorem foldl_stageSample_sameValue {chain other : Float32} (same : SameValue chain other)
    (factors : List (Float32 × Float32)) :
    SameValue (factors.foldl stageSample chain) (product other factors) := by
  unfold product
  induction factors generalizing chain other with
  | nil => exact same
  | cons factor rest ih => exact ih (stageSample_sameValue same factor)

/-! ### The wiring of a voice, node by node -/

theorem incoming_append (first second : List Connection) (key : NodeKey) :
    incoming (first ++ second) key = incoming first key ++ incoming second key := by
  simp [incoming]

theorem incoming_eq_nil {connections : List Connection} {key : Nat}
    (absent : ∀ c ∈ connections, c.target < key ∨ key < c.target) :
    incoming connections key = [] := by
  simp only [incoming, List.map_eq_nil_iff, List.filter_eq_nil_iff, beq_iff_eq]
  exact fun c mem => (absent c mem).elim Nat.ne_of_lt Nat.ne_of_gt

theorem incoming_stageWires_of_le {control chain count key : Nat} (le : key ≤ chain) :
    incoming (stageWires control chain count) key = [] := by
  refine incoming_eq_nil fun c mem => .inr (Nat.lt_of_le_of_lt le ?_)
  exact (mem_stageNodes.mp (ends_of_mem_stageWires mem).2).1

/-- What feeds the weight, the modulator and the stage of a branch. -/
theorem incoming_stageWires (control : Nat) {count j : Nat} (lt : j < count) (chain : Nat) :
    incoming (stageWires control chain count) (chain + 3 * j + 1) =
        [⟨chain + 3 * j + 2, .audio⟩] ∧
      incoming (stageWires control chain count) (chain + 3 * j + 2) =
        [⟨control, .knob .frequency⟩] ∧
      incoming (stageWires control chain count) (chain + 3 * j + 3) =
        [⟨chain + 3 * j + 1, .knob .gain⟩, ⟨chain + 3 * j, .audio⟩] := by
  induction count generalizing chain j with
  | zero => omega
  | succ count ih =>
    simp only [stageWires, incoming_append]
    cases j with
    | zero =>
      have later (key : Nat) (le : key ≤ chain + 3) :
          incoming (stageWires control (chain + 3) count) key = [] := incoming_stageWires_of_le le
      rw [later _ (by omega), later _ (by omega), later _ (by omega)]
      simp [incoming]
    | succ j =>
      have shifted : chain + 3 * (j + 1) = chain + 3 + 3 * j := by omega
      have head (key : Nat) (lt : chain + 3 < key) :
          incoming [⟨control, chain + 2, .knob .frequency⟩, ⟨chain + 2, chain + 1, .audio⟩,
            ⟨chain + 1, chain + 3, .knob .gain⟩, ⟨chain, chain + 3, .audio⟩] key = [] := by
        refine incoming_eq_nil fun c mem => .inl ?_
        simp only [List.mem_cons, List.not_mem_nil, or_false] at mem
        rcases mem with rfl | rfl | rfl | rfl <;> dsimp only [NodeKey] <;> omega
      obtain ⟨weight, modulator, stage⟩ := ih (by omega) (chain + 3) (j := j)
      rw [shifted, head _ (by omega), head _ (by omega), head _ (by omega), weight, modulator,
        stage]
      exact ⟨rfl, rfl, rfl⟩

/-- Every node of a row of stages leads to its end. -/
theorem leads_of_mem_stageNodes {control chain count key : Nat}
    (mem : key ∈ chain :: stageNodes chain count) :
    ReflTransGen (Feeds (stageWires control chain count)) key (chain + 3 * count) := by
  induction count generalizing chain key with
  | zero =>
    obtain rfl : key = chain := by simpa [stageNodes] using mem
    exact .refl
  | succ count ih =>
    have wire (c : Connection) (mem : c ∈ stageWires control chain (count + 1)) :
        Feeds (stageWires control chain (count + 1)) c.source c.target := ⟨c.inlet, mem⟩
    have within (key : Nat) (mem : key ∈ (chain + 3) :: stageNodes (chain + 3) count) :
        ReflTransGen (Feeds (stageWires control chain (count + 1))) key
          (chain + 3 * (count + 1)) := by
      have path := ih mem
      have shifted : chain + 3 * (count + 1) = chain + 3 + 3 * count := by omega
      rw [shifted]
      exact ReflTransGen.mono (fun _ _ => Feeds.mono (List.subset_append_right _ _)) _ _ path
    have stage := within (chain + 3) List.mem_cons_self
    have weight : ReflTransGen (Feeds (stageWires control chain (count + 1))) (chain + 1)
        (chain + 3 * (count + 1)) :=
      .head (wire ⟨chain + 1, chain + 3, .knob .gain⟩ (by simp [stageWires])) stage
    simp only [stageNodes, List.cons_append, List.nil_append, List.mem_cons] at mem
    rcases mem with rfl | rfl | rfl | rfl | later
    · exact .head (wire ⟨key, key + 3, .audio⟩ (by simp [stageWires])) stage
    · exact .head (wire ⟨chain + 2, chain + 1, .audio⟩ (by simp [stageWires])) weight
    · exact weight
    · exact stage
    · exact within key (List.mem_cons_of_mem _ later)

namespace Sheet

/-- The components of a branch. -/
theorem getElem?_components (sheet : Sheet τ) {j : Nat} {branch : Branch}
    (here : sheet.branches[j]? = some branch) :
    sheet.components[3 * j + 1]? = some (.gain branch.weight) ∧
      sheet.components[3 * j + 2]? = some (sheet.generator branch.signal) ∧
      sheet.components[3 * j + 3]? = some (.gain 1.0) := by
  have flat (branches : List Branch) (j : Nat) (here : branches[j]? = some branch) :
      (branches.flatMap sheet.branch)[3 * j]? = some (.gain branch.weight) ∧
        (branches.flatMap sheet.branch)[3 * j + 1]? = some (sheet.generator branch.signal) ∧
        (branches.flatMap sheet.branch)[3 * j + 2]? = some (.gain 1.0) := by
    induction branches generalizing j with
    | nil => cases here
    | cons first rest ih =>
      cases j with
      | zero =>
        cases here
        exact ⟨rfl, rfl, rfl⟩
      | succ j =>
        have later := ih j here
        have shifted : 3 * (j + 1) = 3 * j + 3 := by omega
        rw [shifted]
        exact later
  exact flat sheet.branches j here

end Sheet

/-! ### A voice in the plan -/

/-- Connections that lead forward in some order have no cycles. -/
theorem not_cycle_of_forward {connections : List Connection} (order : List NodeKey)
    (forward : ∀ c ∈ connections, order.idxOf c.source < order.idxOf c.target) (key : NodeKey) :
    ¬ TransGen (Feeds connections) key key := by
  have climbs {a b : NodeKey} (path : TransGen (Feeds connections) a b) :
      order.idxOf a < order.idxOf b := by
    induction path with
    | single feeds => exact forward _ feeds.choose_spec
    | tail _ feeds ih => exact ih.trans (forward _ feeds.choose_spec)
  exact fun cycle => Nat.lt_irrefl _ (climbs cycle)

theorem Plan.Orders.kept_subset {plan : Plan} {connections dropped : List Connection}
    {destination : NodeKey} (orders : plan.Orders connections dropped destination) :
    plan.kept ⊆ connections := by
  intro c kept
  obtain ⟨step, mem, link, listed, rfl⟩ := Plan.mem_kept.mp kept
  rw [orders.listed step mem] at listed
  exact mem_incoming.mp (List.mem_filter.mp listed).1

namespace Graph

variable {graph : Graph τ}

/-- The plan keeps the connections of nodes that are on no cycle. -/
theorem WellFormed.not_cut (well : graph.WellFormed) {key : NodeKey}
    (no_cycle : ¬ TransGen (Feeds graph.connections) key key) {c : Connection}
    (ends : c.source = key ∨ c.target = key) :
    c ∉ (Search.complete graph.connections destination).cut := by
  intro cut
  have made := (well.orders.dropped_mem c cut).1
  have back : TransGen (Feeds graph.connections) c.target c.source :=
    TransGen.mono (fun _ _ => Feeds.mono well.orders.kept_subset) _ _ (well.orders.closes c cut)
  rcases ends with rfl | rfl
  · exact no_cycle (.head ⟨c.inlet, made⟩ back)
  · exact no_cycle (back.tail ⟨c.inlet, made⟩)

namespace Site

variable {site : Site} {components : List (Component τ)}

/-- No cycle of connections passes through a voice. -/
def Open (site : Site) (connections : List Connection) : Prop :=
  ∀ key ∈ site.nodes, ¬ TransGen (Feeds connections) key key

theorem last_mem_nodes : site.last ∈ site.nodes :=
  mem_nodes.mpr ⟨Nat.le_add_right _ _, Nat.le_refl _⟩

/-- Does a connection lead from the voice to its output stage? -/
def exits (site : Site) (c : Connection) : Bool :=
  c.source ∈ site.nodes && c.target == site.output

variable [Fourier]

/-- A single connection leads from a voice to its output stage. -/
theorem Stands.exits (stands : site.Stands graph components) :
    graph.connections.filter site.exits = [⟨site.last, site.output, .audio⟩] := by
  have among : graph.connections.filter site.exits = site.wires.filter site.exits := by
    rw [← stands.wires, List.filter_filter]
    refine List.filter_congr fun c _ => ?_
    simp only [Site.exits, touches]
    cases decide (c.source ∈ site.nodes) && c.target == site.output <;> simp
  have inner (c : Connection) (within : site.base ≤ c.target) : ¬ site.exits c = true := by
    have apart : c.target ≠ site.output := Nat.ne_of_gt (Nat.lt_of_lt_of_le stands.outside within)
    simp [Site.exits, apart]
  have stages : (stageWires site.control site.base site.count).filter site.exits = [] :=
    List.filter_eq_nil_iff.mpr fun c mem =>
      inner c (mem_stageNodes.mp (ends_of_mem_stageWires mem).2).1.le
  have exit : site.exits ⟨site.last, site.output, .audio⟩ = true := by
    simp [Site.exits, last_mem_nodes]
  rw [among, Site.wires, voiceWires, List.cons_append,
    List.filter_cons_of_neg (inner _ (Nat.le_refl _)), List.filter_append, stages, List.nil_append]
  exact List.filter_cons_of_pos exit

/-- A voice is planned with its output stage. -/
theorem Stands.planned (stands : site.Stands graph components) (well : graph.WellFormed)
    (planned : site.output ∈ graph.prepare.1.keys) {key : NodeKey} (mem : key ∈ site.nodes) :
    key ∈ graph.prepare.1.keys := by
  have made : site.wires ⊆ graph.connections := by
    rw [← stands.wires]
    exact List.filter_subset_self _
  have inner : stageWires site.control site.base site.count ⊆ site.wires := by
    intro c mem
    exact List.mem_append_left _ (List.mem_cons_of_mem _ mem)
  have exit : Feeds graph.connections site.last site.output :=
    ⟨.audio, made (List.mem_append_right _ List.mem_cons_self)⟩
  have path : ReflTransGen (Feeds graph.connections) key site.last :=
    ReflTransGen.mono (fun _ _ => Feeds.mono (List.Subset.trans inner made)) _ _
      (leads_of_mem_stageNodes mem)
  have onward := (well.orders.reached site.output).mp planned
  exact (well.orders.reached key).mpr (path.trans (.head exit onward))

/-- What feeds a node of a voice is what the wiring of the voice says. -/
theorem Stands.step (stands : site.Stands graph components) (well : graph.WellFormed)
    (free : site.Open graph.connections) (planned : site.output ∈ graph.prepare.1.keys)
    {key : NodeKey} (mem : key ∈ site.nodes) :
    ∃ step ∈ graph.prepare.1.steps, step.key = key ∧ step.inputs = incoming site.wires key := by
  obtain ⟨step, listed, rfl⟩ := List.mem_map.mp (stands.planned well planned mem)
  refine ⟨step, listed, rfl, ?_⟩
  have whole : (incoming graph.connections step.key).filter
      (fun link => link.into step.key ∉ (Search.complete graph.connections destination).cut) =
        incoming graph.connections step.key := by
    refine List.filter_eq_self.mpr fun link _ => decide_eq_true ?_
    exact well.not_cut (free step.key mem) (.inr rfl)
  rw [well.orders.listed step listed, whole, incoming, incoming, ← stands.wires,
    List.filter_filter]
  congr 1
  refine List.filter_congr fun c _ => ?_
  by_cases here : c.target = step.key
  · simp [here, touches, mem]
  · simp [here]

/-- The output stage is fed by the last node of the voice, and by no other node of it. -/
theorem Stands.exit (stands : site.Stands graph components) (well : graph.WellFormed)
    (free : site.Open graph.connections) (planned : site.output ∈ graph.prepare.1.keys) :
    ∃ step ∈ graph.prepare.1.steps, step.key = site.output ∧
      step.inputs.filter (fun link => link.source ∈ site.nodes) = [⟨site.last, .audio⟩] := by
  obtain ⟨step, listed, same⟩ := List.mem_map.mp planned
  refine ⟨step, listed, same, ?_⟩
  have from_voice : (incoming graph.connections site.output).filter
      (fun link => link.source ∈ site.nodes) = [⟨site.last, .audio⟩] := by
    have single := congrArg (List.map fun c => (⟨c.source, c.inlet⟩ : Link)) stands.exits
    rw [incoming, List.filter_map, List.filter_filter]
    exact single
  have kept : Link.into ⟨site.last, .audio⟩ site.output ∉
      (Search.complete graph.connections destination).cut :=
    well.not_cut (free site.last last_mem_nodes) (.inl rfl)
  rw [well.orders.listed step listed, List.filter_comm, same, from_voice]
  exact List.filter_cons_of_pos (decide_eq_true kept)

end Site

/-! ### The frames of a voice -/

section Frames

variable [TimeAxis τ]

/-- A generator goes on from frame to frame through the next chunk. Within its window it reads the
wave of a timbre on, at a frequency with the signal of a control added to it. Before and after it is
silent and stays as it is. -/
def Runs [Fourier] (graph : Graph τ) (control : NodeKey) (timbre : Partials) (frequency : Float32)
    (key : NodeKey) : Prop :=
  ∀ i, ∃ g, graph.nodeAt i key = some (.generator g) ∧ g.Sings graph.rate timbre ∧
    g.frequency = frequency ∧
    let read := g.player.next (frequency + (0.0 + graph.sampleAt i control)) graph.rate
    if g.Within (graph.now + TimeAxis.ofFrames i.toUInt64 graph.rate) then
      graph.sampleAt i key = read.1 ∧
        graph.nodeAt (i + 1) key = some (.generator { g with player := read.2 })
    else graph.sampleAt i key = 0.0 ∧ graph.nodeAt (i + 1) key = some (.generator g)

/-- A gain multiplies what is fed into it by its factor and what its knob is fed with. -/
theorem WellFormed.sampleAt_gain (well : graph.WellFormed) {step : Step}
    (mem : step ∈ graph.prepare.1.steps) {factor : Float32}
    (lives : graph.node? step.key = some (.gain factor)) (i : Nat) :
    graph.sampleAt i step.key = total (graph.sampleAt i) step.audio *
      (factor + total (graph.sampleAt i) step.modulation) := by
  have sample : graph.sampleAt i step.key = _ :=
    sampleAt_step well.orders.once well.orders.earlier mem lives i
  rw [Node.sampleAt, Node.after_gain] at sample
  exact sample

namespace Site

variable [Fourier] {site : Site} {components : List (Component τ)}

omit [TimeAxis τ] in
/-- The control feeds the carrier. Each modulator is fed by the control, its weight by it, and the
stage by the weight and by the chain. -/
theorem Stands.incoming_wires (stands : site.Stands graph components) :
    incoming site.wires site.base = [⟨site.control, .knob .frequency⟩] ∧
      ∀ j < site.count,
        incoming site.wires (site.base + 3 * j + 1) = [⟨site.base + 3 * j + 2, .audio⟩] ∧
        incoming site.wires (site.base + 3 * j + 2) = [⟨site.control, .knob .frequency⟩] ∧
        incoming site.wires (site.base + 3 * j + 3) =
          [⟨site.base + 3 * j + 1, .knob .gain⟩, ⟨site.base + 3 * j, .audio⟩] := by
  have outside := stands.outside
  have no_exit {key : Nat} (le : site.base ≤ key) :
      incoming [⟨site.base + 3 * site.count, site.output, .audio⟩] key = [] :=
    incoming_eq_nil fun c mem => .inl (List.mem_singleton.mp mem ▸ Nat.lt_of_lt_of_le outside le)
  have no_start {key : Nat} (lt : site.base < key) :
      incoming [⟨site.control, site.base, .knob .frequency⟩] key = [] :=
    incoming_eq_nil fun c mem => .inl (List.mem_singleton.mp mem ▸ lt)
  have parts (key : NodeKey) : incoming site.wires key =
      incoming [⟨site.control, site.base, .knob .frequency⟩] key ++
        (incoming (stageWires site.control site.base site.count) key ++
          incoming [⟨site.base + 3 * site.count, site.output, .audio⟩] key) := by
    rw [← incoming_append, ← incoming_append]
    rfl
  constructor
  · rw [parts, no_exit (Nat.le_refl _), incoming_stageWires_of_le (Nat.le_refl _)]
    simp [incoming]
  · intro j lt
    obtain ⟨weight, modulator, stage⟩ := incoming_stageWires site.control lt site.base
    have later (k : Nat) : site.base < site.base + 3 * j + (k + 1) :=
      Nat.lt_of_le_of_lt (Nat.le_add_right _ (3 * j)) (Nat.lt_add_of_pos_right (Nat.succ_pos k))
    have between (k : Nat) : incoming site.wires (site.base + 3 * j + (k + 1)) =
        incoming (stageWires site.control site.base site.count) (site.base + 3 * j + (k + 1)) := by
      rw [parts, no_start (later k), no_exit (later k).le, List.nil_append, List.append_nil]
    exact ⟨(between 0).trans weight, (between 1).trans modulator, (between 2).trans stage⟩

variable (stands : site.Stands graph components) (well : graph.WellFormed)
  (free : site.Open graph.connections) (planned : site.output ∈ graph.prepare.1.keys)

include stands well free planned

/-- A generator of a voice that its control feeds. -/
theorem Stands.runs {offset : Nat} {timbre : Partials} {frequency : Float32}
    {starts stops : Option τ}
    (here : components[offset]? = some (.generator timbre frequency starts stops))
    (mem : site.base + offset ∈ site.nodes)
    (fed : incoming site.wires (site.base + offset) = [⟨site.control, .knob .frequency⟩]) :
    graph.Runs site.control timbre frequency (site.base + offset) := by
  obtain ⟨step, listed, same, inputs⟩ := stands.step well free planned mem
  obtain ⟨node, lives, g, rfl, ⟨made, wave, stands_for, placed, plays⟩, tuned⟩ :=
    stands.nodes offset _ here
  have modulation (i : Nat) :
      total (graph.sampleAt i) step.modulation = 0.0 + graph.sampleAt i site.control := by
    rw [Step.modulation, inputs, fed]
    rfl
  intro i
  rw [← same] at lives ⊢
  obtain ⟨moved, now, resting, sample, next⟩ := well.frame_generator listed lives i
  rw [modulation] at sample next
  have timeless := congrArg Node.timeless resting
  rw [Node.timeless_resting, Node.timeless_resting] at timeless
  have kept : (Component.generator timbre frequency starts stops).Kept graph.rate
      (.generator moved) :=
    Component.Kept.congr ⟨g, rfl, ⟨made, wave, stands_for, placed, plays⟩, tuned⟩ timeless
  obtain ⟨_, ⟨⟩, sings, tuned⟩ := kept
  subst tuned
  refine ⟨moved, now, sings, rfl, ?_⟩
  by_cases within : moved.Within (graph.block.timeAt i)
  · rw [Generator.frame_of_within within] at sample next
    exact (if_pos within).mpr ⟨sample, next⟩
  · rw [Generator.frame_of_not_within within] at sample next
    exact (if_neg within).mpr ⟨sample, next⟩

/-- A branch multiplies the chain by its factor. -/
theorem Stands.stage {sheet : Sheet τ} (same : components = sheet.components) {j : Nat}
    {branch : Branch} (here : sheet.branches[j]? = some branch) (i : Nat) :
    graph.sampleAt i (site.base + 3 * (j + 1)) =
      stageSample (graph.sampleAt i (site.base + 3 * j))
        (branch.weight, graph.sampleAt i (site.base + 3 * j + 2)) := by
  subst same
  obtain ⟨weight, -, stage⟩ := sheet.getElem?_components here
  have lt : j < site.count := by
    have count := stands.count
    have within := (List.getElem?_eq_some_iff.mp here).1
    rw [sheet.length_components] at count
    omega
  obtain ⟨weight_fed, -, stage_fed⟩ := stands.incoming_wires.2 j lt
  have within (offset : Nat) (le : offset ≤ 3 * site.count) : site.base + offset ∈ site.nodes :=
    mem_nodes.mpr ⟨Nat.le_add_right _ _, Nat.add_le_add_left le _⟩
  have weighed : graph.sampleAt i (site.base + 3 * j + 1) =
      (0.0 + graph.sampleAt i (site.base + 3 * j + 2)) * (branch.weight + 0.0) := by
    obtain ⟨step, listed, same, inputs⟩ :=
      stands.step well free planned (within (3 * j + 1) (by omega))
    obtain ⟨node, lives, rfl⟩ := stands.nodes _ _ weight
    rw [← same] at lives
    have sample := well.sampleAt_gain listed lives i
    rw [same, Step.audio, Step.modulation, inputs, ← Nat.add_assoc, weight_fed] at sample
    exact sample
  obtain ⟨step, listed, same, inputs⟩ :=
    stands.step well free planned (within (3 * j + 3) (by omega))
  obtain ⟨node, lives, rfl⟩ := stands.nodes _ _ stage
  rw [← same] at lives
  have sample := well.sampleAt_gain listed lives i
  rw [same, Step.audio, Step.modulation, inputs, ← Nat.add_assoc, stage_fed] at sample
  have shifted : site.base + 3 * (j + 1) = site.base + 3 * j + 3 := by
    simp only [NodeKey]
    omega
  rw [shifted, sample, stageSample, ← weighed]
  rfl

end Site

namespace Site

variable {site : Site}

/-- What a voice does through the next chunk of its graph: it multiplies its timbre by factors, each
given as a timbre and a weight. -/
structure Multiplies [Fourier] (site : Site) (graph : Graph τ) (timbre : Partials)
    (factors : List (Partials × Float32)) (frequency : Float32) (voice : Voice) : Prop where
  first : voice.generators.head? = some voice.carrier
  /-- There is a generator for the timbre and one for each factor, and no other. All of them run at
  the frequency of the voice with the control added. -/
  runs : List.Forall₂ (fun timbre key => graph.Runs site.control timbre frequency key)
    (timbre :: factors.map (·.1)) voice.generators
  single : graph.connections.filter site.exits = [⟨site.last, site.output, .audio⟩]
  /-- The last node gives what the stages make of the carrier, one after another. -/
  cascade : ∀ i, graph.sampleAt i site.last =
    ((factors.map (·.2)).zip (voice.generators.tail.map (graph.sampleAt i))).foldl stageSample
      (graph.sampleAt i voice.carrier)
  /-- This is the product, but for the sign of zero. -/
  product : ∀ i, SameValue (graph.sampleAt i site.last)
    (product (graph.sampleAt i voice.carrier)
      ((factors.map (·.2)).zip (voice.generators.tail.map (graph.sampleAt i))))
  /-- The output stage is fed with it alone, and cannot tell it from the product. -/
  delivered : ∃ step ∈ graph.prepare.1.steps, step.key = site.output ∧
    step.inputs.filter (fun link => link.source ∈ site.nodes) = [⟨site.last, .audio⟩] ∧
    ∀ i, total (graph.sampleAt i) step.audio =
      total (Function.update (graph.sampleAt i) site.last
        (Patchbay.product (graph.sampleAt i voice.carrier)
          ((factors.map (·.2)).zip (voice.generators.tail.map (graph.sampleAt i))))) step.audio
  /-- The samples are what the buffers hold once the chunk is rendered. -/
  rendered : ∀ n ≤ maxBlockSize, ∃ samples after, graph.renderChunk n = .ok (samples, after) ∧
    graph.Chunked n after

omit [TimeAxis τ] in
theorem forall₂_stageGenerators {R : Branch → NodeKey → Prop} {branches : List Branch}
    {chain : NodeKey}
    (each : ∀ (j : Nat) branch, branches[j]? = some branch → R branch (chain + 3 * j + 2)) :
    List.Forall₂ R branches (stageGenerators chain branches.length) := by
  induction branches generalizing chain with
  | nil => exact .nil
  | cons first rest ih =>
    refine .cons (each 0 first rfl) (ih fun j branch here => ?_)
    have shifted : chain + 3 * (j + 1) + 2 = chain + 3 + 3 * j + 2 := by
      simp only [NodeKey]
      omega
    exact shifted ▸ each (j + 1) branch here

omit [TimeAxis τ] in
/-- Stages in a row make of the chain what a fold makes of it. -/
theorem foldl_stages {signal : NodeKey → Float32} {branches : List Branch} {chain : NodeKey}
    (stage : ∀ (j : Nat) branch, branches[j]? = some branch →
      signal (chain + 3 * (j + 1)) =
        stageSample (signal (chain + 3 * j)) (branch.weight, signal (chain + 3 * j + 2))) :
    signal (chain + 3 * branches.length) = ((branches.map (·.weight)).zip
      ((stageGenerators chain branches.length).map signal)).foldl stageSample (signal chain) := by
  induction branches generalizing chain with
  | nil => rfl
  | cons first rest ih =>
    have shifted (j : Nat) : chain + 3 * (j + 1) = chain + 3 + 3 * j := by
      simp only [NodeKey]
      omega
    have later (j : Nat) (branch : Branch) (here : rest[j]? = some branch) :
        signal (chain + 3 + 3 * (j + 1)) = stageSample (signal (chain + 3 + 3 * j))
          (branch.weight, signal (chain + 3 + 3 * j + 2)) := by
      rw [← shifted, ← shifted]
      exact stage (j + 1) branch here
    rw [List.length_cons, shifted, ih later, stage 0 first rfl]
    rfl

section Planned

variable [Fourier] {sheet : Sheet τ} (stands : site.Stands graph sheet.components)
  (well : graph.WellFormed)
  (free : site.Open graph.connections) (planned : site.output ∈ graph.prepare.1.keys)
  (count : site.count = sheet.branches.length)

include stands well free planned count

/-- The stages of a voice in a row. -/
theorem Stands.cascade (i : Nat) : graph.sampleAt i site.last =
    ((sheet.branches.map (·.weight)).zip
      ((stageGenerators site.base site.count).map (graph.sampleAt i))).foldl stageSample
        (graph.sampleAt i site.base) := by
  rw [Site.last, count]
  exact foldl_stages fun j branch here => stands.stage well free planned rfl here i

/-- The generators of a voice in a row. -/
theorem Stands.runs_each :
    List.Forall₂ (fun timbre key => graph.Runs site.control timbre sheet.frequency key)
      (sheet.timbre :: sheet.branches.map (·.signal)) (voiceGenerators site.base site.count) := by
  obtain ⟨carrier_fed, branch_fed⟩ := stands.incoming_wires
  refine .cons ?_ ?_
  · have carrier : graph.Runs site.control sheet.timbre sheet.frequency (site.base + 0) :=
      stands.runs well free planned rfl
        (mem_nodes.mpr ⟨Nat.le_refl _, Nat.le_add_right _ _⟩) carrier_fed
    exact carrier
  · rw [List.forall₂_map_left_iff, count]
    refine forall₂_stageGenerators fun j branch here => ?_
    have lt : j < site.count := count ▸ (List.getElem?_eq_some_iff.mp here).1
    have mem : site.base + (3 * j + 2) ∈ site.nodes :=
      mem_nodes.mpr ⟨Nat.le_add_right _ _, Nat.add_le_add_left (by omega) _⟩
    exact stands.runs well free planned (sheet.getElem?_components here).2.1 mem
      (branch_fed j lt).2.1

/-- A voice that stands on no cycle, with its output stage in the plan, multiplies. -/
theorem Stands.multiplies {factors : List (Partials × Float32)}
    (same : sheet.branches.map (fun branch => (branch.signal, branch.weight)) = factors) :
    site.Multiplies graph sheet.timbre factors sheet.frequency
      ⟨site.base, voiceGenerators site.base site.count⟩ := by
  subst same
  have signals : (sheet.branches.map fun branch => (branch.signal, branch.weight)).map (·.1) =
      sheet.branches.map (·.signal) := List.map_map
  have weights : (sheet.branches.map fun branch => (branch.signal, branch.weight)).map (·.2) =
      sheet.branches.map (·.weight) := List.map_map
  have cascade := stands.cascade well free planned count
  have product (i : Nat) := foldl_stageSample_sameValue (.refl (graph.sampleAt i site.base))
    ((sheet.branches.map (·.weight)).zip
      ((stageGenerators site.base site.count).map (graph.sampleAt i)))
  simp only [← cascade] at product
  constructor
  case first => rfl
  case runs => exact signals ▸ stands.runs_each well free planned count
  case single => exact stands.exits
  case cascade => exact fun i => weights ▸ cascade i
  case product => exact fun i => weights ▸ product i
  case delivered =>
    obtain ⟨step, listed, same, alone⟩ := stands.exit well free planned
    refine ⟨step, listed, same, alone, fun i => total_congr_sameValue fun link _ => ?_⟩
    by_cases here : link.source = site.last
    · rw [here, Function.update_self]
      exact weights ▸ product i
    · rw [Function.update_of_ne here]
      exact .refl _
  case rendered =>
    intro n fits
    obtain ⟨after, rendered, chunked⟩ := well.chunk fits
    exact ⟨_, after, rendered, chunked⟩

end Planned

end Site

end Frames

end Graph

namespace RingOscillator

/-- The branches of a ring are the signals with a weight that is not zero, as far as both lists
go. -/
theorem map_branches (ring : RingOscillator) :
    ring.branches.map (fun branch => (branch.signal, branch.weight)) =
      (ring.signals.zip ring.weights).filter fun factor => factor.2 != 0.0 := by
  rw [branches, List.filter_map, List.map_map]
  have entries := congrArg (List.filter fun factor : Partials × Float32 => factor.2 != 0.0)
    (List.zipIdx_map_fst 0 (ring.signals.zip ring.weights))
  rw [← entries, List.filter_map]
  rfl

namespace Usage

variable [TimeAxis τ]

/-- Whatever was done with a ring whose output stage and control live, it builds a voice, unless no
buffer can be allocated. The voice has a carrier, and three nodes for every signal with a weight
that is not zero. Whatever is done to the graph then, as long as it spares the voice, the voice
multiplies the carrier by its factors wherever it is on no cycle and its output stage is
rendered. -/
theorem voice_multiplies [Fourier] {graph : Graph τ} (reachable : graph.Reachable) (timbre : Timbre)
    (calls : List (Call τ)) :
    let used := calls.foldl call (create graph timbre)
    let factors := (used.ring.signals.zip used.ring.weights).filter fun factor => factor.2 != 0.0
    used.graph.contains used.ring.oscillator.output →
    used.graph.contains used.ring.oscillator.control → ∀ frequency,
    (Partials.maxBins < binCount used.graph.rate ∧ used.ring.build used.graph frequency =
        .error (.bufferTooLarge (binCount used.graph.rate))) ∨
      ∃ voice built after, used.ring.build used.graph frequency = .ok (voice, built, after) ∧
        after.nodes.size = used.graph.nodes.size + (1 + 3 * factors.length) ∧
        after.connections = used.graph.connections ++ (used.ring.site used.graph).wires ∧
        ∀ operations : List (Graph.Operation τ),
          (∀ operation ∈ operations, (used.ring.site used.graph).Spared operation) →
          let later := operations.foldl Graph.perform after
          (used.ring.site used.graph).Open later.connections →
          used.ring.oscillator.output ∈ later.prepare.1.keys →
          (used.ring.site used.graph).Multiplies later used.ring.oscillator.partials factors
            frequency voice := by
  intro used factors output control frequency
  have seated : used.Seated := (seated_create reachable.wellFormed timbre).run calls
  have sound : used.Sound := (sound_create graph timbre).run calls
  rcases Nat.lt_or_ge Partials.maxBins (binCount used.graph.rate) with large | fits
  · exact .inl ⟨large, sound.build_eq_error large frequency⟩
  · obtain ⟨built, after, build, stands, size, connections, well⟩ :=
      build_stands (seated.playable sound output control fits) frequency
    have count : used.ring.branches.length = factors.length := by
      rw [← List.length_map, map_branches]
    refine .inr ⟨_, built, after, build, count ▸ size, connections, ?_⟩
    intro operations spared later free planned
    exact (stands.run well spared).multiplies (.run well operations) free planned rfl
      used.ring.map_branches

/-- A ring with three signals, the second of which rests, sings while its control is turned. The
third falls silent after one frame. -/
theorem voice_multiplies_trio :
    let timbre : Timbre := ⟨.ofList [(2.0, 1.0)], Partials.keyed_ofList _⟩
    let opposite : Timbre := ⟨.ofList [(2.0, -1.0)], Partials.keyed_ofList _⟩
    let calls : List (Call Float) := [.modulate [timbre, timbre, opposite] [0.5, 0.0, -0.25],
      .elsewhere (.connect 1 0 .audio), .elsewhere .resume]
    let used := calls.foldl call (create (.atRate 4.0) timbre)
    let operations : List (Graph.Operation Float) := [.armStart 3 0.0, .armStart 5 0.0,
      .armStart 8 0.0, .armStop 8 0.5, .render 1, .setValue 2 .offset 1.0]
    (Graph.atRate 4.0 : Graph Float).Reachable ∧
      used.graph.contains used.ring.oscillator.output ∧
      used.graph.contains used.ring.oscillator.control ∧
      (∀ operation ∈ operations, (used.ring.site used.graph).Spared operation) ∧
      ∃ voice built after, used.ring.build used.graph 1.0 = .ok (voice, built, after) ∧
        let later := operations.foldl Graph.perform after
        (used.ring.site used.graph).Open later.connections ∧
        used.ring.oscillator.output ∈ later.prepare.1.keys ∧
        (used.ring.site used.graph).Multiplies later used.ring.oscillator.partials
          [(timbre.1, 0.5), (opposite.1, -0.25)] 1.0 voice ∧
        voice.generators = [3, 5, 8] ∧ (used.ring.site used.graph).last = 9 ∧
        [3, 5, 8, 9].map (fun key => (List.range 3).map (later.sampleAt · key)) =
          [[1.0, -1.0, 1.0], [1.0, -1.0, 1.0], [-1.0, 0.0, 0.0], [1.875, -0.5, 1.5]] ∧
        (later.renderChunk 3).toOption.map (·.1) = some [1.875, -0.5, 1.5] := by
  intro timbre opposite calls used operations
  have reachable : (Graph.atRate 4.0 : Graph Float).Reachable := .create 4.0
  have output : used.graph.contains used.ring.oscillator.output := by decide +kernel
  have control : used.graph.contains used.ring.oscillator.control := by decide +kernel
  have place : used.ring.site used.graph = ⟨3, 2, 1, 2⟩ := by decide +kernel
  have spared : ∀ operation ∈ operations, (used.ring.site used.graph).Spared operation := by
    rw [place]
    intro operation mem
    simp only [operations, List.mem_cons, List.not_mem_nil, or_false] at mem
    rcases mem with rfl | rfl | rfl | rfl | rfl | rfl <;> exact ⟨by decide, by decide, by decide⟩
  have seen : (used.ring.build used.graph 1.0).toOption.map (fun made =>
      let later := operations.foldl Graph.perform made.2.2
      (later.connections.all fun c =>
          [2, 8, 7, 5, 4, 3, 6, 9, 1, 0].idxOf c.source <
            [2, 8, 7, 5, 4, 3, 6, 9, 1, 0].idxOf c.target) &&
        decide (used.ring.oscillator.output ∈ later.prepare.1.keys) &&
        decide (made.1.generators = [3, 5, 8]) &&
        decide ([3, 5, 8, 9].map (fun key => (List.range 3).map (later.sampleAt · key)) =
          [[1.0, -1.0, 1.0], [1.0, -1.0, 1.0], [-1.0, 0.0, 0.0], [1.875, -0.5, 1.5]]) &&
        decide ((later.renderChunk 3).toOption.map (·.1) = some [1.875, -0.5, 1.5])) =
          some true := by
    decide +kernel
  rcases voice_multiplies reachable timbre calls output control 1.0 with ⟨large, -⟩ |
    ⟨voice, built, after, build, -, -, sounds⟩
  · exact absurd large (by decide +kernel)
  · rw [build] at seen
    have checked := Option.some.inj seen
    simp only [Bool.and_eq_true, List.all_eq_true, decide_eq_true_eq] at checked
    obtain ⟨⟨⟨⟨forward, planned⟩, generators⟩, samples⟩, heard⟩ := checked
    have free : (used.ring.site used.graph).Open
        (operations.foldl Graph.perform after).connections :=
      fun key _ => not_cycle_of_forward _ forward key
    have factors : ((used.ring.signals.zip used.ring.weights).filter fun factor =>
        factor.2 != 0.0) = [(timbre.1, 0.5), (opposite.1, -0.25)] := by
      have weights : [(0.5 : Float32), 0.0, -0.25].map (· != 0.0) = [true, false, true] := by
        decide +kernel
      have all : used.ring.signals.zip used.ring.weights =
          [(timbre.1, 0.5), (timbre.1, 0.0), (opposite.1, -0.25)] := rfl
      simp only [List.map_cons, List.map_nil, List.cons.injEq, and_true] at weights
      simp [all, weights]
    have multiplies := sounds operations spared free planned
    exact ⟨reachable, output, control, spared, voice, built, after, build, free, planned,
      factors ▸ multiplies, generators, congrArg Graph.Site.last place, samples, heard⟩

end Usage

end RingOscillator

end Patchbay
