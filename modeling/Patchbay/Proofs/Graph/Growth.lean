import Patchbay.Proofs.Graph.Operation
import Patchbay.Voice.RingOscillator

/-!
# Graphs that grow

What operations do that only add to a graph. Nodes come at the end of the list of nodes and
connections at the end of the list of connections.
-/
namespace Patchbay.Graph

variable {τ : Type}

/-- The graphs differ in what was reported and in how many waves were made, if at all. -/
def Reported (before after : Graph τ) : Prop :=
  ∃ waves journal, after = { before with waves, journal }

theorem reported_log (graph : Graph τ) (event : Event τ) : graph.Reported (graph.log event) :=
  ⟨_, _, rfl⟩

theorem reported_logAll (graph : Graph τ) (events : List (Event τ)) :
    graph.Reported (graph.logAll events) :=
  ⟨_, _, graph.logAll_eq events⟩

theorem Reported.refl (graph : Graph τ) : graph.Reported graph := ⟨_, _, rfl⟩

theorem Reported.node? {before after : Graph τ} (h : before.Reported after) (key : NodeKey) :
    after.node? key = before.node? key := by
  obtain ⟨_, _, rfl⟩ := h
  rfl

theorem Reported.wellFormed {before after : Graph τ} (h : before.Reported after)
    (wellFormed : before.WellFormed) : after.WellFormed := by
  obtain ⟨_, _, rfl⟩ := h
  exact wellFormed.of_same (fun _ => rfl) rfl wellFormed.buffered fun _ kept => .inl kept

/-- Nodes and connections were added, in this order, and nothing else was changed. -/
structure Grown (before after : Graph τ) (nodes : List (Node τ)) (wires : List Connection) :
    Prop where
  nodes : after.nodes.toList = before.nodes.toList ++ nodes.map some
  connections : after.connections = before.connections ++ wires
  clock : after.clock = before.clock
  wellFormed : after.WellFormed

variable {before middle after : Graph τ} {nodes more : List (Node τ)} {wires : List Connection}

theorem Reported.grown (h : before.Reported after) (wellFormed : before.WellFormed) :
    before.Grown after [] [] := by
  have kept := h.wellFormed wellFormed
  obtain ⟨_, _, rfl⟩ := h
  exact ⟨by simp, by simp, rfl, kept⟩

theorem Grown.trans {others : List Connection} (first : before.Grown middle nodes wires)
    (second : middle.Grown after more others) :
    before.Grown after (nodes ++ more) (wires ++ others) where
  nodes := by rw [second.nodes, first.nodes, List.map_append, List.append_assoc]
  connections := by rw [second.connections, first.connections, List.append_assoc]
  clock := second.clock.trans first.clock
  wellFormed := second.wellFormed

theorem Grown.size (h : before.Grown after nodes wires) :
    after.nodes.size = before.nodes.size + nodes.length := by
  have lengths := congrArg List.length h.nodes
  simpa using lengths

theorem Grown.rate (h : before.Grown after nodes wires) : after.rate = before.rate := by
  rw [Graph.rate, h.clock]
  rfl

theorem node?_eq_toList (graph : Graph τ) (key : NodeKey) :
    graph.node? key = graph.nodes.toList[key]?.join := by
  simp [node?]

theorem getElem?_nodes (graph : Graph τ) (key : Nat) : graph.nodes.toList[key]? =
    if key < graph.nodes.size then some (graph.node? key) else none := by
  split
  · rename_i within
    simp [node?, within]
  · rename_i outside
    simp [outside]

/-- Old nodes stay. -/
theorem Grown.node?_of_lt (h : before.Grown after nodes wires) {key : Nat}
    (old : key < before.nodes.size) : after.node? key = before.node? key := by
  rw [node?_eq_toList, node?_eq_toList, h.nodes, List.getElem?_append_left (by simpa using old)]

theorem Grown.node?_new (h : before.Grown after nodes wires) (i : Nat) :
    after.node? (before.nodes.size + i) = nodes[i]? := by
  rw [node?_eq_toList, h.nodes, List.getElem?_append_right (by simp)]
  simp only [Array.length_toList, Nat.add_sub_cancel_left, List.getElem?_map]
  cases nodes[i]? <;> rfl

theorem Grown.contains_iff (h : before.Grown after nodes wires) (key : Nat) :
    after.contains key ↔ before.contains key ∨
      before.nodes.size ≤ key ∧ key < before.nodes.size + nodes.length := by
  by_cases old : key < before.nodes.size
  · simp only [contains, h.node?_of_lt old]
    refine ⟨.inl, fun either => either.elim id fun new => ?_⟩
    omega
  · obtain ⟨i, rfl⟩ := Nat.exists_eq_add_of_le (Nat.le_of_not_lt old)
    have dead : before.node? (before.nodes.size + i) = none :=
      before.node?_of_size_le (Nat.le_add_right _ _)
    simp [contains, h.node?_new, dead]

theorem Grown.lives (h : before.Grown after nodes wires) {key : NodeKey} {node : Node τ}
    (lives : before.node? key = some node) : after.node? key = some node :=
  (h.node?_of_lt (lt_size_of_node? lives)).trans lives

theorem grown_add (graph : Graph τ) (wellFormed : graph.WellFormed) (node : Node τ)
    (kind : node.kind ≠ .destination) : graph.Grown (graph.add node).2 [node] [] where
  nodes := by simp [add]
  connections := by simp
  clock := by simp
  wellFormed := wellFormed.add kind

/-- To turn the knob of a node that was just added is to add it with its knob turned. -/
theorem setValue_add (graph : Graph τ) {node turned : Node τ} {knob : Knob} {value : Float32}
    (turn : node.setValue? knob value = some turned) :
    ((graph.add node).2.setValue graph.nodes.size knob value).1 = (graph.add turned).2 := by
  have found : (graph.add node).2.node? graph.nodes.size = some node := by simp [node?_add]
  have turned_last : (graph.nodes.push (some node)).setIfInBounds graph.nodes.size (some turned) =
      graph.nodes.push (some turned) := by
    apply Array.ext'
    simp
  simp only [setValue, found, Option.bind_some, turn]
  simp [replace, add, turned_last]

/-- A new connection between nodes that can be joined is made. -/
theorem grown_connect (graph : Graph τ) (wellFormed : graph.WellFormed) (inlet : Inlet)
    {source target : NodeKey} {from_node to_node : Node τ}
    (source_lives : graph.node? source = some from_node)
    (output : from_node.hasOutput) (target_lives : graph.node? target = some to_node)
    (accepts : to_node.accepts inlet) (apart : source ≠ target)
    (new : ⟨source, target, inlet⟩ ∉ graph.connections) :
    graph.Grown (graph.connect source target inlet).1 [] [⟨source, target, inlet⟩] where
  nodes := by
    simp
  connections := by
    have admitted : graph.admits ⟨source, target, inlet⟩ = true :=
      admits_iff.mpr ⟨⟨_, source_lives, output⟩, ⟨_, target_lives, accepts⟩, apart⟩
    rw [connections_connect, if_pos ⟨admitted, new⟩]
  clock := (graph.connect_rest source target inlet).2.1
  wellFormed := wellFormed.connect source target inlet

/-- What is as new as a node is not yet connected with it. -/
theorem WellFormed.not_mem_of_size_le {graph : Graph τ} (h : graph.WellFormed) {c : Connection}
    (new : graph.nodes.size ≤ c.source ∨ graph.nodes.size ≤ c.target) : c ∉ graph.connections := by
  intro mem
  obtain ⟨source, target⟩ := h.lt_size mem
  exact new.elim (Nat.not_le.mpr source) (Nat.not_le.mpr target)

/-- A new gain is fed by one node and its factor by another. -/
theorem WellFormed.grown_stage {graph : Graph τ} (h : graph.WellFormed)
    {factor_source source : NodeKey} {by_factor by_signal : Node τ}
    (factor_lives : graph.node? factor_source = some by_factor)
    (factor_output : by_factor.hasOutput) (source_lives : graph.node? source = some by_signal)
    (source_output : by_signal.hasOutput) {stage : NodeKey} (last : graph.nodes.size = stage) :
    let after := (((graph.add (.gain 1.0)).2.connect factor_source stage (.knob .gain)).1.connect
      source stage .audio).1
    graph.Grown after [.gain 1.0]
        [⟨factor_source, stage, .knob .gain⟩, ⟨source, stage, .audio⟩] ∧
      after.node? stage = some (.gain 1.0) := by
  subst last
  have staged := graph.grown_add h (.gain 1.0) (by simp [Node.kind])
  have stage : (graph.add (.gain 1.0)).2.node? graph.nodes.size = some (.gain 1.0) := by
    simp [node?_add]
  have apart {key : NodeKey} {node : Node τ} (lives : graph.node? key = some node) :
      key ≠ graph.nodes.size := Nat.ne_of_lt (lt_size_of_node? lives)
  have no_wire (c : Connection) (ends : c.target = graph.nodes.size) :
      c ∉ (graph.add (.gain 1.0)).2.connections := by
    rw [staged.connections, List.append_nil]
    exact h.not_mem_of_size_le (.inr (Nat.le_of_eq ends.symm))
  have driven := grown_connect _ staged.wellFormed (.knob .gain) (staged.lives factor_lives)
    factor_output stage rfl (apart factor_lives) (no_wire _ rfl)
  have no_source : (⟨source, graph.nodes.size, .audio⟩ : Connection) ∉
      ((graph.add (.gain 1.0)).2.connect factor_source graph.nodes.size
        (.knob .gain)).1.connections := by
    rw [driven.connections, List.mem_append, not_or]
    exact ⟨no_wire _ rfl, by simp⟩
  have fed := grown_connect _ driven.wellFormed .audio (driven.lives (staged.lives source_lives))
    source_output (driven.lives stage) rfl (apart source_lives) no_source
  exact ⟨(staged.trans driven).trans fed, fed.lives (driven.lives stage)⟩

end Patchbay.Graph
