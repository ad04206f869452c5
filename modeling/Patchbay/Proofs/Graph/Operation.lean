import Mathlib.Tactic.Tauto
import Patchbay.Proofs.Graph.Elapsing

/-!
# Graphs that can come about

A graph comes about by operations from the graph of a destination alone. All of them keep it
well formed: connections are admitted and stand once, the destination is the one node of its
kind, every node has its buffer, and a plan that is kept is the plan for the connections.
-/
namespace Patchbay

/-- The kinds of node. -/
inductive Kind where
  | generator
  | gain
  | constant
  | destination
  deriving Repr, DecidableEq

namespace Node

variable {τ : Type}

/-- The kind of a node, which it keeps for good. -/
def kind : Node τ → Kind
  | generator _ => .generator
  | gain _ => .gain
  | constant _ => .constant
  | destination => .destination

theorem accepts_eq_of_kind {a b : Node τ} (h : a.kind = b.kind) (inlet : Inlet) :
    a.accepts inlet = b.accepts inlet := by
  rcases inlet with _ | (_ | _ | _) <;> cases a <;> cases b <;> cases h <;> rfl

theorem hasOutput_eq_of_kind {a b : Node τ} (h : a.kind = b.kind) :
    a.hasOutput = b.hasOutput := by
  cases a <;> cases b <;> cases h <;> rfl

@[simp] theorem kind_setValue? (node : Node τ) (knob : Knob) (value : Float32) :
    ((node.setValue? knob value).getD node).kind = node.kind := by
  cases node <;> cases knob <;> rfl

@[simp] theorem kind_mapGenerator (f : Generator τ → Generator τ) (node : Node τ) :
    (node.mapGenerator f).kind = node.kind := by
  cases node <;> rfl

@[simp] theorem kind_resting (node : Node τ) : node.resting.kind = node.kind :=
  kind_mapGenerator _ node

end Node

namespace Graph

variable {τ : Type}

/-- The kind of the node under a key. -/
def kind? (graph : Graph τ) (key : NodeKey) : Option Kind :=
  (graph.node? key).map Node.kind

theorem contains_eq_isSome_kind? (graph : Graph τ) (key : NodeKey) :
    graph.contains key = (graph.kind? key).isSome := by
  simp [contains, kind?]

/-- Whether a connection can be made hangs on the kinds of its ends alone. -/
theorem admits_congr {a b : Graph τ} {c : Connection} (source : a.kind? c.source = b.kind? c.source)
    (target : a.kind? c.target = b.kind? c.target) : a.admits c = b.admits c := by
  have output : (a.node? c.source).any Node.hasOutput = (b.node? c.source).any Node.hasOutput := by
    simp only [kind?] at source
    cases ha : a.node? c.source <;> cases hb : b.node? c.source <;> simp_all
    exact Node.hasOutput_eq_of_kind source
  have accepts : (a.node? c.target).any (·.accepts c.inlet) =
      (b.node? c.target).any (·.accepts c.inlet) := by
    simp only [kind?] at target
    cases ha : a.node? c.target <;> cases hb : b.node? c.target <;> simp_all
    exact Node.accepts_eq_of_kind target c.inlet
  simp only [admits, output, accepts]

theorem admits_iff {graph : Graph τ} {c : Connection} : graph.admits c = true ↔
    (∃ node, graph.node? c.source = some node ∧ node.hasOutput) ∧
      (∃ node, graph.node? c.target = some node ∧ node.accepts c.inlet) ∧ c.source ≠ c.target := by
  simp [admits, Option.any_eq_true, and_assoc]

/-! ### Operations -/

/-- What can be done to a graph. -/
inductive Operation (τ : Type) where
  | addGenerator (wave : SharedWave)
  | addGain (factor : Float32)
  | addConstant (level : Float32)
  | setValue (key : NodeKey) (knob : Knob) (value : Float32)
  | connect (source target : NodeKey) (inlet : Inlet)
  | disconnect (source : NodeKey)
  | disconnectInlet (target : NodeKey) (inlet : Inlet)
  | armStart (key : NodeKey) (time : τ)
  | armStop (key : NodeKey) (time : τ)
  | remove (key : NodeKey)
  | resume
  | suspend
  | synthesize (real imag : Array Float32)
  | render (frames : Nat)

section Histories

variable [Fourier]

/-- The graph after an operation. A fault leaves it as it was. -/
def perform [TimeAxis τ] (graph : Graph τ) : Operation τ → Graph τ
  | .addGenerator wave => (graph.addGenerator wave).2
  | .addGain factor => (graph.addGain factor).2
  | .addConstant level => (graph.addConstant level).2
  | .setValue key knob value => (graph.setValue key knob value).1
  | .connect source target inlet => (graph.connect source target inlet).1
  | .disconnect source => (graph.disconnect source).1
  | .disconnectInlet target inlet => (graph.disconnectInlet target inlet).1
  | .armStart key time => (graph.armStart key time).1
  | .armStop key time => (graph.armStop key time).1
  | .remove key => (graph.remove key).1
  | .resume => graph.resume
  | .suspend => graph.suspend
  | .synthesize real imag => (graph.synthesize real imag).2
  | .render frames =>
    match graph.render frames with
    | .ok (_, after) => after
    | .error _ => graph

/-- The graphs that operations lead to. -/
inductive Reachable [TimeAxis τ] : Graph τ → Prop
  | create (rate : Float32) : Reachable (atRate rate)
  | perform {graph : Graph τ} (reachable : Reachable graph) (operation : Operation τ) :
    Reachable (graph.perform operation)

theorem Reachable.run [TimeAxis τ] {graph : Graph τ} (h : graph.Reachable)
    (operations : List (Operation τ)) : (operations.foldl Graph.perform graph).Reachable := by
  induction operations generalizing graph with
  | nil => exact h
  | cons operation rest ih => exact ih (h.perform operation)

/-! ### Well-formed graphs -/

end Histories

structure WellFormed (graph : Graph τ) : Prop where
  admitted : ∀ c ∈ graph.connections, graph.admits c
  distinct : graph.connections.Nodup
  /-- The destination is the one node of its kind. -/
  destined : ∀ key, graph.kind? key = some .destination ↔ key = destination
  buffered : graph.outputs.size = graph.nodes.size
  planned : ∀ plan, graph.plan = some plan →
    plan = Plan.ofConnections graph.connections destination

variable {graph after : Graph τ}

/-- Where kinds and connections stay, a graph stays well formed. -/
theorem WellFormed.of_same (h : graph.WellFormed) (kinds : ∀ key, after.kind? key = graph.kind? key)
    (connections : after.connections = graph.connections)
    (buffered : after.outputs.size = after.nodes.size)
    (planned : ∀ plan, after.plan = some plan → graph.plan = some plan ∨
      plan = Plan.ofConnections graph.connections destination) : after.WellFormed where
  admitted := by
    intro c mem
    rw [admits_congr (kinds c.source) (kinds c.target)]
    exact h.admitted c (connections ▸ mem)
  distinct := connections ▸ h.distinct
  destined := by simpa only [kinds] using h.destined
  buffered := buffered
  planned := by
    intro plan kept
    rw [connections]
    exact (planned plan kept).elim (h.planned plan) id

/-- Some connections and nodes may go, as long as every connection keeps its ends. -/
theorem WellFormed.of_sublist (h : graph.WellFormed)
    (sub : after.connections.Sublist graph.connections)
    (kinds : ∀ key, key = destination ∨ (∃ c ∈ after.connections, c.source = key ∨ c.target = key) →
      after.kind? key = graph.kind? key)
    (fewer : ∀ key kind, after.kind? key = some kind → graph.kind? key = some kind)
    (buffered : after.outputs.size = after.nodes.size)
    (planned : ∀ plan, after.plan = some plan →
      graph.plan = some plan ∧ after.connections = graph.connections) : after.WellFormed where
  admitted := by
    intro c mem
    rw [admits_congr (kinds c.source (.inr ⟨c, mem, .inl rfl⟩))
      (kinds c.target (.inr ⟨c, mem, .inr rfl⟩))]
    exact h.admitted c (sub.subset mem)
  distinct := h.distinct.sublist sub
  destined := by
    intro key
    refine ⟨fun lives => (h.destined key).mp (fewer key _ lives), fun same => ?_⟩
    rw [kinds key (.inl same)]
    exact (h.destined key).mpr same
  buffered := buffered
  planned := by
    intro plan kept
    obtain ⟨was_kept, same⟩ := planned plan kept
    rw [same]
    exact h.planned plan was_kept

theorem wellFormed_atRate (rate : Float32) : (atRate rate : Graph τ).WellFormed where
  admitted := by simp [atRate]
  distinct := by simp [atRate]
  destined := by
    intro key
    cases key with
    | zero => simp [kind?, node?, atRate, Node.kind, destination]
    | succ key => simp [kind?, node?, atRate, destination]
  buffered := rfl
  planned := by simp [atRate]

theorem kind?_add (graph : Graph τ) (node : Node τ) (key : NodeKey) :
    (graph.add node).2.kind? key =
      if key = graph.nodes.size then some node.kind else graph.kind? key := by
  simp only [kind?, node?_add]
  split <;> rfl

theorem WellFormed.lt_size (h : graph.WellFormed) {c : Connection} (mem : c ∈ graph.connections) :
    c.source < graph.nodes.size ∧ c.target < graph.nodes.size := by
  obtain ⟨⟨_, source, _⟩, ⟨_, target, _⟩, _⟩ := admits_iff.mp (h.admitted c mem)
  exact ⟨lt_size_of_node? source, lt_size_of_node? target⟩

theorem WellFormed.add (h : graph.WellFormed) {node : Node τ} (kind : node.kind ≠ .destination) :
    (graph.add node).2.WellFormed where
  admitted := by
    intro c mem
    have mem : c ∈ graph.connections := by simpa using mem
    obtain ⟨source, target⟩ := h.lt_size mem
    rw [admits_congr (b := graph)]
    · exact h.admitted c mem
    · rw [kind?_add, if_neg (Nat.ne_of_lt source)]
    · rw [kind?_add, if_neg (Nat.ne_of_lt target)]
  distinct := by simpa using h.distinct
  destined := by
    intro key
    rw [kind?_add]
    split
    · rename_i new
      have old : destination < graph.nodes.size := by
        obtain ⟨node, found, _⟩ := Option.map_eq_some_iff.mp ((h.destined destination).mpr rfl)
        exact lt_size_of_node? found
      simp only [Option.some.injEq, kind, false_iff]
      exact fun same => absurd (new ▸ same ▸ old) (Nat.lt_irrefl _)
    · exact h.destined key
  buffered := by simp [Graph.add, h.buffered]
  planned := by simpa using h.planned

@[simp] theorem kind?_setValue (graph : Graph τ) (key : NodeKey) (knob : Knob) (value : Float32)
    (other : NodeKey) : (graph.setValue key knob value).1.kind? other = graph.kind? other := by
  simp only [kind?, node?_setValue]
  split
  · rename_i here
    subst here
    cases graph.node? other <;> simp
  · rfl

@[simp] theorem kind?_modifyGenerator (graph : Graph τ) (key : NodeKey)
    (f : Generator τ → Generator τ) (other : NodeKey) :
    (graph.modifyGenerator key f).1.kind? other = graph.kind? other := by
  simp only [kind?, node?_modifyGenerator]
  split
  · rename_i here
    subst here
    cases graph.node? other <;> simp
  · rfl

theorem WellFormed.setValue (h : graph.WellFormed) (key : NodeKey) (knob : Knob)
    (value : Float32) : (graph.setValue key knob value).1.WellFormed :=
  h.of_same (by simp) (by simp) (by simp [h.buffered]) (by simp +contextual)

theorem WellFormed.modifyGenerator (h : graph.WellFormed) (key : NodeKey)
    (f : Generator τ → Generator τ) : (graph.modifyGenerator key f).1.WellFormed :=
  h.of_same (by simp) (by simp) (by simp [h.buffered]) (by simp +contextual)

theorem WellFormed.log (h : graph.WellFormed) (event : Event τ) : (graph.log event).WellFormed :=
  h.of_same (fun _ => rfl) rfl h.buffered fun _ kept => .inl kept

theorem WellFormed.synthesize [Fourier] (h : graph.WellFormed) (real imag : Array Float32) :
    (graph.synthesize real imag).2.WellFormed :=
  h.of_same (fun _ => rfl) rfl h.buffered fun _ kept => .inl kept

theorem WellFormed.connect (h : graph.WellFormed) (source target : NodeKey) (inlet : Inlet) :
    (graph.connect source target inlet).1.WellFormed := by
  have kinds (key : NodeKey) :
      (graph.connect source target inlet).1.kind? key = graph.kind? key := by simp [kind?]
  simp only [Graph.connect] at kinds ⊢
  split
  · rename_i admitted
    split
    · exact h
    · rename_i absent
      simp only [admitted, if_true, absent, if_false] at kinds
      constructor
      case admitted =>
        intro c mem
        rw [admits_congr (kinds c.source) (kinds c.target)]
        rcases List.mem_append.mp mem with mem | mem
        · exact h.admitted c mem
        · exact List.mem_singleton.mp mem ▸ admitted
      case distinct =>
        refine List.nodup_append.mpr ⟨h.distinct, by simp, ?_⟩
        intro c mem new is_new same
        exact absent (List.mem_singleton.mp is_new ▸ same ▸ mem)
      case destined => exact fun key => (kinds key) ▸ h.destined key
      case buffered => exact h.buffered
      case planned => simp
  · exact h.log _

theorem WellFormed.keepConnections (h : graph.WellFormed) (keep : Connection → Bool) :
    (graph.keepConnections keep).1.WellFormed := by
  refine h.of_sublist List.filter_sublist (fun _ _ => rfl) (fun _ _ lives => lives) h.buffered ?_
  intro plan kept
  simp only [Graph.keepConnections] at kept ⊢
  split at kept
  · cases kept
  · rename_i none_removed
    refine ⟨kept, List.filter_sublist.eq_of_length_le ?_⟩
    omega

theorem WellFormed.remove (h : graph.WellFormed) (key : NodeKey) :
    (graph.remove key).1.WellFormed := by
  have kinds (other : NodeKey) : (graph.remove key).1.kind? other =
      if other = key ∧ key ≠ destination then none else graph.kind? other := by
    simp only [kind?, node?_remove]
    split <;> rfl
  refine h.of_sublist (graph.connections_remove_sublist key) ?_ ?_ ?_ ?_
  · intro other held
    rw [kinds, if_neg]
    rintro ⟨rfl, not_destination⟩
    rcases held with rfl | ⟨c, mem, touches⟩
    · exact not_destination rfl
    · rw [connections_remove] at mem
      split at mem
      · have apart := (List.mem_filter.mp mem).2
        simp only [Bool.and_eq_true, bne_iff_ne] at apart
        exact touches.elim apart.1 apart.2
      · rename_i dead
        -- a connection that touches the key shows that its node lives
        have admitted := admits_iff.mp (h.admitted c mem)
        obtain ⟨⟨_, source, _⟩, ⟨_, target, _⟩, _⟩ := admitted
        refine dead ⟨not_destination, ?_⟩
        rcases touches with rfl | rfl
        · simp [contains, source]
        · simp [contains, target]
  · intro other kind lives
    rw [kinds] at lives
    split at lives
    · cases lives
    · exact lives
  · simp [h.buffered]
  · intro plan kept
    simp only [Graph.remove] at kept ⊢
    split at kept
    · rename_i refused
      rw [if_pos refused]
      exact ⟨kept, rfl⟩
    · cases kept

/-- To remove nodes one after another takes out what touches them. -/
theorem foldl_remove (graph : Graph τ) (wellFormed : graph.WellFormed)
    (keys : List NodeKey) (inner : destination ∉ keys) :
    ∃ after, keys.foldl (fun graph key => (graph.remove key).1) graph = after ∧
      after.WellFormed ∧ after.clock = graph.clock ∧ after.nodes.size = graph.nodes.size ∧
      after.connections = graph.connections.filter (fun c => c.source ∉ keys ∧ c.target ∉ keys) ∧
      ∀ key, after.node? key = if key ∈ keys then none else graph.node? key := by
  induction keys generalizing graph with
  | nil => exact ⟨graph, rfl, wellFormed, rfl, rfl, by simp, by simp⟩
  | cons first rest ih =>
    simp only [List.mem_cons, not_or] at inner
    have not_destination : first ≠ destination := Ne.symm inner.1
    have cut : (graph.remove first).1.connections =
        graph.connections.filter fun c => c.source ≠ first ∧ c.target ≠ first := by
      rw [connections_remove]
      split
      · refine List.filter_congr fun c _ => ?_
        rw [Bool.eq_iff_iff]
        simp
      · -- a dead node has no connections
        rename_i kept
        have dead : ¬ graph.contains first := fun lives => kept ⟨not_destination, lives⟩
        symm
        rw [List.filter_eq_self]
        intro c mem
        obtain ⟨⟨_, source, _⟩, ⟨_, target, _⟩, _⟩ := admits_iff.mp (wellFormed.admitted c mem)
        simp only [ne_eq, decide_eq_true_eq]
        refine ⟨fun same => dead ?_, fun same => dead ?_⟩
        · simp [contains, ← same, source]
        · simp [contains, ← same, target]
    obtain ⟨after, run, wellFormed, clock, size, connections, nodes⟩ :=
      ih (graph.remove first).1 (wellFormed.remove first) inner.2
    refine ⟨after, run, wellFormed, ?_, ?_, ?_, ?_⟩
    · simp [clock]
    · simp [size]
    · rw [connections, cut, List.filter_filter]
      refine List.filter_congr fun c _ => ?_
      simp only [List.mem_cons, not_or, Bool.decide_and, decide_not]
      rw [Bool.eq_iff_iff]
      simp
      tauto
    · intro key
      rw [nodes, node?_remove]
      by_cases here : key = first
      · simp [here, not_destination]
      · simp [here]

/-! ### Rendering keeps graphs well formed -/

theorem WellFormed.prepare_fst (h : graph.WellFormed) :
    graph.prepare.1 = Plan.ofConnections graph.connections destination :=
  graph.prepare_fst.elim (h.planned _) id

theorem SameButPhases.kind? (same : graph.SameButPhases after) (key : NodeKey) :
    after.kind? key = graph.kind? key :=
  same.map_eq Node.kind Node.kind_resting key

theorem Elapsed.wellFormed {n : Nat} (elapsed : graph.Elapsed n after) (h : graph.WellFormed) :
    after.WellFormed :=
  h.of_same elapsed.phases.kind? elapsed.connections
    (elapsed.buffers.trans (h.buffered.trans elapsed.size.symm)) elapsed.planned

section Rendering

variable [TimeAxis τ]

theorem WellFormed.renderChunk (h : graph.WellFormed) {n : Nat} {samples : List Float32}
    (rendered : graph.renderChunk n = .ok (samples, after)) : after.WellFormed :=
  (elapsed_renderChunk rendered).wellFormed h

theorem WellFormed.renderChunks (h : graph.WellFormed) {chunks : List Nat}
    {samples : List Float32} (rendered : graph.renderChunks chunks = .ok (samples, after)) :
    after.WellFormed :=
  (elapsed_renderChunks rendered).wellFormed h

theorem WellFormed.render (h : graph.WellFormed) {n : Nat} {samples : List Float32}
    (rendered : graph.render n = .ok (samples, after)) : after.WellFormed :=
  (elapsed_render rendered).wellFormed h

variable [Fourier]

theorem WellFormed.perform (h : graph.WellFormed) (operation : Operation τ) :
    (graph.perform operation).WellFormed := by
  cases operation with
  | addGenerator | addGain | addConstant => exact h.add (by simp [Node.kind])
  | setValue => exact h.setValue _ _ _
  | connect => exact h.connect _ _ _
  | disconnect | disconnectInlet => exact h.keepConnections _
  | armStart | armStop => exact h.modifyGenerator _ _
  | remove => exact h.remove _
  | resume | suspend => exact h.of_same (fun _ => rfl) rfl h.buffered fun _ kept => .inl kept
  | synthesize => exact h.synthesize _ _
  | render frames =>
    simp only [Graph.perform]
    split
    · rename_i rendered
      exact h.render rendered
    · exact h

theorem WellFormed.run (h : graph.WellFormed) (operations : List (Operation τ)) :
    (operations.foldl Graph.perform graph).WellFormed :=
  List.foldlRecOn operations _ h fun _ h operation _ => h.perform operation

theorem Reachable.wellFormed (h : graph.Reachable) : graph.WellFormed := by
  induction h with
  | create rate => exact wellFormed_atRate rate
  | perform _ operation ih => exact ih.perform operation

end Rendering

end Graph

end Patchbay
