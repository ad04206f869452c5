import Patchbay.Proofs.Graph.Growth
import Patchbay.Proofs.Voice.Sheet

/-!
# Generators that are given a window

To arm the generators of a voice changes nothing but when they begin and end. Where they are new to
the graph, it is as if they had been added with their window.
-/
namespace Patchbay

variable {τ : Type}

/-- A component with its window. -/
def Component.armed (starts stops : τ) : Component τ → Component τ
  | .generator timbre frequency _ _ => .generator timbre frequency (some starts) (some stops)
  | .gain factor => .gain factor

def Generator.armed (starts stops : τ) (generator : Generator τ) : Generator τ :=
  { generator with starts := some starts, stops := some stops }

theorem Component.Shown.armed [Fourier] {rate : Float32} {component : Component τ} {node : Node τ}
    (h : component.Shown rate node) (starts stops : τ) :
    (component.armed starts stops).Shown rate (node.mapGenerator (·.armed starts stops)) := by
  cases component with
  | generator =>
    obtain ⟨g, rfl, plays, frequency, -, -⟩ := h
    exact ⟨g.armed starts stops, rfl, plays, frequency, rfl, rfl⟩
  | gain factor =>
    cases h
    rfl

theorem Sheet.map_armed_components (timbre : Partials) (branches : List Branch)
    (frequency : Float32) (starts stops : τ) :
    (Sheet.mk timbre branches frequency none none).components.map (Component.armed starts stops) =
      (Sheet.mk timbre branches frequency (some starts) (some stops)).components := by
  simp only [Sheet.components, List.map_cons, List.map_flatMap]
  rfl

/-- To arm nodes one after another changes the generators among them. -/
theorem Graph.arm_spec (graph : Graph τ) (keys : List NodeKey) (starts stops : τ) :
    ∃ after, keys.foldl (fun graph key =>
        ((graph.armStart key starts).1.armStop key stops).1) graph = after ∧
      (∀ key, after.node? key = if key ∈ keys then
        (graph.node? key).map (Node.mapGenerator (·.armed starts stops)) else graph.node? key) ∧
      after.nodes.size = graph.nodes.size ∧ after.connections = graph.connections ∧
      after.clock = graph.clock ∧ (graph.WellFormed → after.WellFormed) := by
  induction keys generalizing graph with
  | nil => exact ⟨graph, rfl, by simp, rfl, rfl, rfl, id⟩
  | cons first rest ih =>
    obtain ⟨after, run, nodes, size, connections, clock, wellFormed⟩ :=
      ih ((graph.armStart first starts).1.armStop first stops).1
    refine ⟨after, run, ?_, ?_, ?_, ?_, ?_⟩
    · intro key
      rw [nodes]
      simp only [Graph.armStart, Graph.armStop, Graph.node?_modifyGenerator, List.mem_cons]
      by_cases here : key = first
      · subst here
        cases graph.node? key with
        | none => simp
        | some node =>
          have twice : ((node.mapGenerator ({ · with starts := some starts })).mapGenerator
              ({ · with stops := some stops })) = node.mapGenerator (·.armed starts stops) := by
            cases node <;> rfl
          have again : (node.mapGenerator (·.armed starts stops)).mapGenerator
              (·.armed starts stops) = node.mapGenerator (·.armed starts stops) := by
            cases node <;> rfl
          simp [twice, again]
      · simp [here]
    · simp [size, Graph.armStart, Graph.armStop]
    · simp [connections, Graph.armStart, Graph.armStop]
    · simp [clock, Graph.armStart, Graph.armStop]
    · exact fun h => wellFormed ((h.modifyGenerator _ _).modifyGenerator _ _)

/-- To arm the generators among new nodes is to add them armed. -/
theorem Graph.Grown.arm {before middle after : Graph τ} {nodes : List (Node τ)}
    {wires : List Connection} (grown : before.Grown middle nodes wires) {keys : List NodeKey}
    {starts stops : τ} (new : ∀ key ∈ keys, before.nodes.size ≤ key)
    (all : ∀ i node, nodes[i]? = some node → node.kind = .generator → before.nodes.size + i ∈ keys)
    (armed : ∀ key, after.node? key = if key ∈ keys then
      (middle.node? key).map (Node.mapGenerator (·.armed starts stops)) else middle.node? key)
    (size : after.nodes.size = middle.nodes.size)
    (connections : after.connections = middle.connections) (clock : after.clock = middle.clock)
    (wellFormed : after.WellFormed) :
    before.Grown after (nodes.map (Node.mapGenerator (·.armed starts stops))) wires where
  nodes := by
    have length : after.nodes.size = before.nodes.size + nodes.length := size.trans grown.size
    refine List.ext_getElem? fun i => ?_
    rw [Graph.getElem?_nodes]
    by_cases old : i < before.nodes.size
    · have not_armed : i ∉ keys := fun mem => Nat.not_le.mpr old (new i mem)
      rw [List.getElem?_append_left (by simpa using old), Graph.getElem?_nodes, if_pos old,
        if_pos (by omega), armed, if_neg not_armed, grown.node?_of_lt old]
    · obtain ⟨j, rfl⟩ := Nat.exists_eq_add_of_le (Nat.le_of_not_lt old)
      rw [List.getElem?_append_right (by simp), length, armed, grown.node?_new]
      simp only [Nat.add_lt_add_iff_left, Array.length_toList, Nat.add_sub_cancel_left,
        List.getElem?_map]
      cases found : nodes[j]? with
      | none => simpa using found
      | some node =>
        have within : j < nodes.length := (List.getElem?_eq_some_iff.mp found).1
        have either : (if before.nodes.size + j ∈ keys then
            some (node.mapGenerator (·.armed starts stops)) else some node) =
              some (node.mapGenerator (·.armed starts stops)) := by
          split
          · rfl
          · rename_i absent
            cases node with
            | generator g => exact absurd (all j _ found rfl) absent
            | _ => rfl
        simp only [within, if_true, Option.map_some, either]
  connections := connections.trans grown.connections
  clock := clock.trans grown.clock
  wellFormed := wellFormed

theorem forall₂_shown_armed [Fourier] {rate : Float32} {components : List (Component τ)}
    {nodes : List (Node τ)} (shown : List.Forall₂ (Component.Shown rate) components nodes)
    (starts stops : τ) : List.Forall₂ (Component.Shown rate)
      (components.map (Component.armed starts stops))
      (nodes.map (Node.mapGenerator (·.armed starts stops))) := by
  induction shown with
  | nil => exact .nil
  | cons first _ ih => exact .cons (first.armed starts stops) ih

end Patchbay
