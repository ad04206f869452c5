import Patchbay.Graph.Basic

/-!
# What the operations do to a graph

A graph is seen through the node under each key, the list of connections, the clock and the
plan. Each lemma says what one operation does to one of these.
-/
namespace Patchbay.Graph

variable {τ : Type}

/-! ### Reports change nothing but the journal -/

@[simp] theorem node?_log (graph : Graph τ) (event : Event τ) (key : NodeKey) :
    (graph.log event).node? key = graph.node? key := rfl

@[simp] theorem connections_log (graph : Graph τ) (event : Event τ) :
    (graph.log event).connections = graph.connections := rfl

@[simp] theorem clock_log (graph : Graph τ) (event : Event τ) :
    (graph.log event).clock = graph.clock := rfl

@[simp] theorem plan_log (graph : Graph τ) (event : Event τ) :
    (graph.log event).plan = graph.plan := rfl

@[simp] theorem size_log (graph : Graph τ) (event : Event τ) :
    (graph.log event).nodes.size = graph.nodes.size := rfl

@[simp] theorem outputs_log (graph : Graph τ) (event : Event τ) :
    (graph.log event).outputs = graph.outputs := rfl

theorem logAll_eq (graph : Graph τ) (events : List (Event τ)) :
    graph.logAll events = { graph with journal := graph.journal ++ events.toArray } := by
  induction events generalizing graph with
  | nil => simp [logAll]
  | cons event rest ih =>
    have h := ih (graph.log event)
    simp only [logAll, List.foldl_cons] at h ⊢
    rw [h]
    simp [log]

@[simp] theorem node?_logAll (graph : Graph τ) (events : List (Event τ)) (key : NodeKey) :
    (graph.logAll events).node? key = graph.node? key := by
  rw [logAll_eq]
  rfl

@[simp] theorem connections_logAll (graph : Graph τ) (events : List (Event τ)) :
    (graph.logAll events).connections = graph.connections := by
  rw [logAll_eq]

@[simp] theorem clock_logAll (graph : Graph τ) (events : List (Event τ)) :
    (graph.logAll events).clock = graph.clock := by
  rw [logAll_eq]

@[simp] theorem plan_logAll (graph : Graph τ) (events : List (Event τ)) :
    (graph.logAll events).plan = graph.plan := by
  rw [logAll_eq]

@[simp] theorem nodes_logAll (graph : Graph τ) (events : List (Event τ)) :
    (graph.logAll events).nodes = graph.nodes := by
  rw [logAll_eq]

@[simp] theorem outputs_logAll (graph : Graph τ) (events : List (Event τ)) :
    (graph.logAll events).outputs = graph.outputs := by
  rw [logAll_eq]

/-! ### Nodes -/

theorem node?_of_size_le (graph : Graph τ) {key : NodeKey} (h : graph.nodes.size ≤ key) :
    graph.node? key = none := by
  simp [node?, h]

theorem lt_size_of_node? {graph : Graph τ} {key : NodeKey} {node : Node τ}
    (h : graph.node? key = some node) : key < graph.nodes.size := by
  refine Nat.lt_of_not_le fun le => ?_
  rw [graph.node?_of_size_le le] at h
  cases h

@[simp] theorem add_fst (graph : Graph τ) (node : Node τ) :
    (graph.add node).1 = graph.nodes.size := rfl

/-- A new node is under the next key, and no other key changes. -/
theorem node?_add (graph : Graph τ) (node : Node τ) (key : NodeKey) :
    (graph.add node).2.node? key =
      if key = graph.nodes.size then some node else graph.node? key := by
  simp only [node?, add, Array.getElem?_push]
  split <;> rfl

@[simp] theorem add_rest (graph : Graph τ) (node : Node τ) :
    (graph.add node).2.nodes.size = graph.nodes.size + 1 ∧
      (graph.add node).2.connections = graph.connections ∧
      (graph.add node).2.clock = graph.clock ∧ (graph.add node).2.plan = graph.plan :=
  ⟨Array.size_push _, rfl, rfl, rfl⟩

/-- Only the key of a replaced node changes. -/
theorem node?_replace (graph : Graph τ) {key : NodeKey} (node : Node τ)
    (lives : graph.contains key) (other : NodeKey) :
    (graph.replace key node).node? other =
      if other = key then some node else graph.node? other := by
  obtain ⟨old, h⟩ := Option.isSome_iff_exists.mp lives
  have lt := lt_size_of_node? h
  simp only [node?, replace, Array.getElem?_setIfInBounds]
  by_cases e : key = other
  · subst e
    simp [lt]
  · simp [e, Ne.symm e]

@[simp] theorem replace_rest (graph : Graph τ) (key : NodeKey) (node : Node τ) :
    (graph.replace key node).nodes.size = graph.nodes.size ∧
      (graph.replace key node).connections = graph.connections ∧
      (graph.replace key node).clock = graph.clock ∧
      (graph.replace key node).plan = graph.plan ∧
      (graph.replace key node).outputs = graph.outputs :=
  ⟨Array.size_setIfInBounds, rfl, rfl, rfl, rfl⟩

/-- Turning a knob changes the node under the key, if it has the knob, and no other. -/
theorem node?_setValue (graph : Graph τ) (key : NodeKey) (knob : Knob) (value : Float32)
    (other : NodeKey) :
    (graph.setValue key knob value).1.node? other =
      if other = key then
        (graph.node? key).map fun node => (node.setValue? knob value).getD node
      else graph.node? other := by
  simp only [setValue]
  split
  · rename_i node turned
    obtain ⟨old, found, set⟩ := Option.bind_eq_some_iff.mp turned
    rw [node?_replace graph node (by simp [contains, found])]
    simp [found, set]
  · rename_i unset
    split
    · rename_i here
      subst here
      cases found : graph.node? other with
      | none => rfl
      | some old =>
        rw [found] at unset
        have unset : old.setValue? knob value = none := unset
        simp [unset]
    · rfl

@[simp] theorem setValue_rest (graph : Graph τ) (key : NodeKey) (knob : Knob) (value : Float32) :
    (graph.setValue key knob value).1.nodes.size = graph.nodes.size ∧
      (graph.setValue key knob value).1.connections = graph.connections ∧
      (graph.setValue key knob value).1.clock = graph.clock ∧
      (graph.setValue key knob value).1.plan = graph.plan ∧
      (graph.setValue key knob value).1.outputs = graph.outputs := by
  simp only [setValue]
  split
  · exact replace_rest _ _ _
  · exact ⟨rfl, rfl, rfl, rfl, rfl⟩

/-- Changing a generator changes the node under the key, if it is one, and no other. -/
theorem node?_modifyGenerator (graph : Graph τ) (key : NodeKey) (f : Generator τ → Generator τ)
    (other : NodeKey) :
    (graph.modifyGenerator key f).1.node? other =
      if other = key then (graph.node? key).map (Node.mapGenerator f) else graph.node? other := by
  simp only [modifyGenerator, generator?]
  split
  · rename_i g found
    obtain ⟨node, found, is_generator⟩ := Option.bind_eq_some_iff.mp found
    rw [node?_replace graph _ (by simp [contains, found])]
    cases node <;> simp_all [Node.generator?, Node.mapGenerator]
  · rename_i absent
    split
    · rename_i here
      subst here
      cases found : graph.node? other with
      | none => rfl
      | some node =>
        rw [found] at absent
        cases node <;> simp_all [Node.generator?, Node.mapGenerator]
    · rfl

@[simp] theorem modifyGenerator_rest (graph : Graph τ) (key : NodeKey)
    (f : Generator τ → Generator τ) :
    (graph.modifyGenerator key f).1.nodes.size = graph.nodes.size ∧
      (graph.modifyGenerator key f).1.connections = graph.connections ∧
      (graph.modifyGenerator key f).1.clock = graph.clock ∧
      (graph.modifyGenerator key f).1.plan = graph.plan ∧
      (graph.modifyGenerator key f).1.outputs = graph.outputs := by
  simp only [modifyGenerator]
  split
  · exact replace_rest _ _ _
  · exact ⟨rfl, rfl, rfl, rfl, rfl⟩

@[simp] theorem node?_synthesize [Fourier] (graph : Graph τ) (real imag : Array Float32)
    (key : NodeKey) : (graph.synthesize real imag).2.node? key = graph.node? key := rfl

@[simp] theorem synthesize_rest [Fourier] (graph : Graph τ) (real imag : Array Float32) :
    (graph.synthesize real imag).2.nodes = graph.nodes ∧
      (graph.synthesize real imag).2.connections = graph.connections ∧
      (graph.synthesize real imag).2.clock = graph.clock ∧
      (graph.synthesize real imag).2.plan = graph.plan ∧
      (graph.synthesize real imag).2.outputs = graph.outputs :=
  ⟨rfl, rfl, rfl, rfl, rfl⟩

/-- A knob that was turned shows the value it was turned to. -/
theorem value?_setValue (graph : Graph τ) {key : NodeKey} {knob : Knob} {value : Float32}
    (h : (graph.setValue key knob value).2 = true) :
    (graph.setValue key knob value).1.value? key knob = some value := by
  simp only [setValue] at h ⊢
  split at h
  · rename_i node turned
    obtain ⟨old, found, set⟩ := Option.bind_eq_some_iff.mp turned
    have lives : graph.contains key := by simp [contains, found]
    simp [value?, node?_replace graph node lives, Node.value?_of_setValue? set]
  · cases h

/-! ### Connections -/

@[simp] theorem node?_connect (graph : Graph τ) (source target : NodeKey) (inlet : Inlet)
    (key : NodeKey) : (graph.connect source target inlet).1.node? key = graph.node? key := by
  simp only [connect]
  split
  · split <;> rfl
  · rfl

@[simp] theorem connect_rest (graph : Graph τ) (source target : NodeKey) (inlet : Inlet) :
    (graph.connect source target inlet).1.nodes = graph.nodes ∧
      (graph.connect source target inlet).1.clock = graph.clock ∧
      (graph.connect source target inlet).1.outputs = graph.outputs := by
  simp only [connect]
  split
  · split <;> exact ⟨rfl, rfl, rfl⟩
  · exact ⟨rfl, rfl, rfl⟩

/-- A connection that is admitted comes at the end, unless it is there. -/
theorem connections_connect (graph : Graph τ) (source target : NodeKey) (inlet : Inlet) :
    (graph.connect source target inlet).1.connections =
      if graph.admits ⟨source, target, inlet⟩ ∧ ⟨source, target, inlet⟩ ∉ graph.connections then
        graph.connections ++ [⟨source, target, inlet⟩]
      else graph.connections := by
  simp only [connect]
  split
  · rename_i admitted
    split
    · rename_i present
      simp [present]
    · rename_i absent
      simp [admitted, absent]
  · rename_i refused
    simp [refused]

@[simp] theorem node?_keepConnections (graph : Graph τ) (keep : Connection → Bool)
    (key : NodeKey) : (graph.keepConnections keep).1.node? key = graph.node? key := rfl

@[simp] theorem keepConnections_rest (graph : Graph τ) (keep : Connection → Bool) :
    (graph.keepConnections keep).1.connections = graph.connections.filter keep ∧
      (graph.keepConnections keep).1.nodes = graph.nodes ∧
      (graph.keepConnections keep).1.clock = graph.clock ∧
      (graph.keepConnections keep).1.outputs = graph.outputs :=
  ⟨rfl, rfl, rfl, rfl⟩

/-- After a connection is made it is there. -/
theorem mem_connections_connect (graph : Graph τ) {source target : NodeKey} {inlet : Inlet}
    (h : (graph.connect source target inlet).2 = true) :
    ⟨source, target, inlet⟩ ∈ (graph.connect source target inlet).1.connections := by
  simp only [connect] at h ⊢
  split
  · split
    · assumption
    · simp
  · rename_i refused
    simp [refused] at h

/-- A connection that is refused leaves the wiring as it is. -/
theorem connections_connect_of_refused (graph : Graph τ) {source target : NodeKey} {inlet : Inlet}
    (h : (graph.connect source target inlet).2 = false) :
    (graph.connect source target inlet).1.connections = graph.connections := by
  simp only [connect] at h ⊢
  split
  · rename_i admitted
    simp only [admitted, if_true] at h
    split at h <;> cases h
  · rfl

/-- A key that is removed stands for no node, unless it is the destination. -/
theorem node?_remove (graph : Graph τ) (key other : NodeKey) :
    (graph.remove key).1.node? other =
      if other = key ∧ key ≠ destination then none else graph.node? other := by
  simp only [remove]
  split
  · rename_i refused
    split
    · rename_i here
      obtain ⟨rfl, not_destination⟩ := here
      have dead : graph.contains other = false := by simpa [not_destination] using refused
      simpa [contains] using dead
    · rfl
  · rename_i removed
    have not_destination : key ≠ destination := fun h => removed (.inl h)
    by_cases here : other = key
    · subst here
      simp [node?, not_destination, Array.getElem?_setIfInBounds]
      split <;> rfl
    · simp [node?, here, Array.getElem?_setIfInBounds_ne (Ne.symm here)]

/-- With a node go the connections that touch it. -/
theorem connections_remove (graph : Graph τ) (key : NodeKey) :
    (graph.remove key).1.connections =
      if key ≠ destination ∧ graph.contains key then
        graph.connections.filter fun c => c.source != key && c.target != key
      else graph.connections := by
  simp only [remove]
  split <;> rename_i h
  · rw [if_neg]
    rintro ⟨not_destination, lives⟩
    exact h.elim not_destination (by simp [lives])
  · rw [if_pos]
    simpa [not_or] using h

@[simp] theorem remove_rest (graph : Graph τ) (key : NodeKey) :
    (graph.remove key).1.nodes.size = graph.nodes.size ∧
      (graph.remove key).1.clock = graph.clock ∧
      (graph.remove key).1.outputs = graph.outputs := by
  simp only [remove]
  split
  · exact ⟨rfl, rfl, rfl⟩
  · exact ⟨Array.size_setIfInBounds, rfl, rfl⟩

/-- Connections that stay keep their order. -/
theorem connections_remove_sublist (graph : Graph τ) (key : NodeKey) :
    (graph.remove key).1.connections.Sublist graph.connections := by
  simp only [remove]
  split
  · exact List.Sublist.refl _
  · exact List.filter_sublist

end Patchbay.Graph
