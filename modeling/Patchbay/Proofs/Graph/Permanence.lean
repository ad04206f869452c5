import Patchbay.Proofs.Graph.Growth
import Patchbay.Proofs.Graph.Replanning

/-!
# What stays of a graph

Keys are given out once. A node keeps its kind for as long as it lives, and a key that was removed
stands for no node ever again. Connections join two nodes that live, and those that are not taken
out keep their order. What is refused changes nothing.
-/
namespace Patchbay.Graph

variable {τ : Type}

/-! ### Knobs that are left alone -/

/-- A knob stands as before on all nodes that were there. -/
structure KeepsKnob (knob : Knob) (graph after : Graph τ) : Prop where
  size : graph.nodes.size ≤ after.nodes.size
  value : ∀ key < graph.nodes.size, after.value? key knob = graph.value? key knob

section KnobsKept

variable {knob : Knob} {graph middle after : Graph τ}

theorem KeepsKnob.of_node? (size : after.nodes.size = graph.nodes.size)
    (same : ∀ key, after.node? key = graph.node? key) : graph.KeepsKnob knob after :=
  ⟨Nat.le_of_eq size.symm, fun key _ => by rw [value?, same, ← value?]⟩

theorem KeepsKnob.refl (graph : Graph τ) : graph.KeepsKnob knob graph :=
  .of_node? rfl fun _ => rfl

theorem KeepsKnob.trans (first : graph.KeepsKnob knob middle)
    (second : middle.KeepsKnob knob after) : graph.KeepsKnob knob after where
  size := first.size.trans second.size
  value := fun key lt => (second.value key (lt.trans_le first.size)).trans (first.value key lt)

theorem KeepsKnob.value_eq_some (keeps : graph.KeepsKnob knob after) {key : NodeKey}
    {level : Float32} (value : graph.value? key knob = some level) :
    after.value? key knob = some level := by
  obtain ⟨node, lives, -⟩ := Option.bind_eq_some_iff.mp value
  rw [keeps.value key (lt_size_of_node? lives), value]

theorem keepsKnob_foldl {α : Type} {f : Graph τ → α → Graph τ}
    (each : ∀ (graph : Graph τ) a, graph.KeepsKnob knob (f graph a)) (list : List α)
    (graph : Graph τ) :
    graph.KeepsKnob knob (list.foldl f graph) := by
  induction list generalizing graph with
  | nil => exact .refl graph
  | cons a rest ih => exact (each graph a).trans (ih (f graph a))

theorem Reported.keepsKnob (reported : graph.Reported after) : graph.KeepsKnob knob after := by
  obtain ⟨_, _, rfl⟩ := reported
  exact .of_node? rfl fun _ => rfl

theorem keepsKnob_add (graph : Graph τ) (node : Node τ) :
    graph.KeepsKnob knob (graph.add node).2 where
  size := by simp
  value := fun key lt => by
    have apart : key ≠ graph.nodes.size := Nat.ne_of_lt lt
    rw [value?, node?_add, if_neg apart, ← value?]

theorem keepsKnob_connect (graph : Graph τ) (source target : NodeKey) (inlet : Inlet) :
    graph.KeepsKnob knob (graph.connect source target inlet).1 :=
  .of_node? (by simp) fun key => node?_connect ..

theorem keepsKnob_keepConnections (graph : Graph τ) (keep : Connection → Bool) :
    graph.KeepsKnob knob (graph.keepConnections keep).1 :=
  .of_node? (by simp) fun key => node?_keepConnections ..

/-- To turn one knob leaves the others. -/
theorem keepsKnob_setValue (graph : Graph τ) (key : NodeKey) {other : Knob} (apart : other ≠ knob)
    (value : Float32) : graph.KeepsKnob knob (graph.setValue key other value).1 where
  size := by simp
  value := fun place _ => by
    rw [value?, value?, node?_setValue]
    split
    · rename_i here
      subst here
      cases graph.node? place with
      | none => rfl
      | some node =>
        cases node <;> cases other <;> cases knob <;> first | rfl | exact absurd rfl apart
    · rfl

/-- To arm a generator turns no knob. -/
theorem keepsKnob_modifyGenerator (graph : Graph τ) (key : NodeKey)
    {f : Generator τ → Generator τ} (kept : ∀ g, (f g).frequency = g.frequency) :
    graph.KeepsKnob knob (graph.modifyGenerator key f).1 where
  size := by simp
  value := fun place _ => by
    rw [value?, value?, node?_modifyGenerator]
    split
    · rename_i here
      subst here
      cases graph.node? place with
      | none => rfl
      | some node =>
        cases node <;> cases knob <;> simp [Node.mapGenerator, Node.value?, kept]
    · rfl

theorem Elapsed.keepsKnob {n : Nat} (elapsed : graph.Elapsed n after) : graph.KeepsKnob knob after :=
  ⟨elapsed.size.ge, fun key _ => elapsed.phases.value? key knob⟩

end KnobsKept

/-! ### Rates and waves -/

/-- A graph keeps its rate, and waves are numbered on from those that were made. -/
structure Ages (graph after : Graph τ) : Prop where
  rate : after.rate = graph.rate
  waves : graph.waves ≤ after.waves

section Ages

variable {graph middle after : Graph τ}

theorem Ages.refl (graph : Graph τ) : graph.Ages graph :=
  ⟨rfl, Nat.le_refl _⟩

theorem Ages.trans (first : graph.Ages middle) (second : middle.Ages after) : graph.Ages after :=
  ⟨second.rate.trans first.rate, Nat.le_trans first.waves second.waves⟩

theorem ages_setValue (graph : Graph τ) (key : NodeKey) (knob : Knob) (value : Float32) :
    graph.Ages (graph.setValue key knob value).1 := by
  unfold setValue
  split <;> exact ⟨rfl, Nat.le_refl _⟩

theorem ages_modifyGenerator (graph : Graph τ) (key : NodeKey) (f : Generator τ → Generator τ) :
    graph.Ages (graph.modifyGenerator key f).1 := by
  unfold modifyGenerator
  split <;> exact ⟨rfl, Nat.le_refl _⟩

theorem ages_connect (graph : Graph τ) (source target : NodeKey) (inlet : Inlet) :
    graph.Ages (graph.connect source target inlet).1 := by
  simp only [connect]
  split
  · split <;> exact ⟨rfl, Nat.le_refl _⟩
  · exact ⟨rfl, Nat.le_refl _⟩

theorem ages_remove (graph : Graph τ) (key : NodeKey) : graph.Ages (graph.remove key).1 := by
  unfold remove
  split <;> exact ⟨rfl, Nat.le_refl _⟩

theorem Elapsed.ages {n : Nat} (elapsed : graph.Elapsed n after) : graph.Ages after :=
  ⟨elapsed.rate, elapsed.waves.ge⟩

/-- Whatever is done to a graph, it ages. -/
theorem ages_perform [Fourier] [TimeAxis τ] (graph : Graph τ) (operation : Operation τ) :
    graph.Ages (graph.perform operation) := by
  cases operation with
  | setValue key knob value => exact graph.ages_setValue key knob value
  | connect source target inlet => exact graph.ages_connect source target inlet
  | armStart key time => exact graph.ages_modifyGenerator key _
  | armStop key time => exact graph.ages_modifyGenerator key _
  | remove key => exact graph.ages_remove key
  | synthesize real imag => exact ⟨rfl, Nat.le_succ _⟩
  | render frames =>
    simp only [perform]
    split
    · rename_i after rendered
      exact (elapsed_render rendered).ages
    · exact .refl graph
  | _ => exact ⟨rfl, Nat.le_refl _⟩

end Ages

/-! ### Nodes as time goes on -/

/-- Of the nodes that were there, each has kept its kind or is gone, and what was gone is gone. -/
structure Succeeds (before after : Graph τ) : Prop where
  size : before.nodes.size ≤ after.nodes.size
  kind : ∀ key < before.nodes.size, after.kind? key = before.kind? key ∨ after.kind? key = none

namespace Succeeds

variable {before middle after : Graph τ}

theorem of_kinds (size : after.nodes.size = before.nodes.size)
    (same : ∀ key, after.kind? key = before.kind? key) : before.Succeeds after :=
  ⟨size.ge, fun key _ => .inl (same key)⟩

theorem refl (graph : Graph τ) : graph.Succeeds graph :=
  .of_kinds rfl fun _ => rfl

theorem trans (first : before.Succeeds middle) (second : middle.Succeeds after) :
    before.Succeeds after where
  size := first.size.trans second.size
  kind := by
    intro key lt
    rcases second.kind key (lt.trans_le first.size) with same | gone
    · rw [same]
      exact first.kind key lt
    · exact .inr gone

/-- A node that lives on is of the kind that it was. -/
theorem kind_eq (h : before.Succeeds after) {key : NodeKey} {kind kind' : Kind}
    (was : before.kind? key = some kind) (is_now : after.kind? key = some kind') :
    kind' = kind := by
  obtain ⟨node, lives, -⟩ := Option.map_eq_some_iff.mp was
  rcases h.kind key (lt_size_of_node? lives) with same | gone
  · rw [same, was] at is_now
    exact (Option.some.inj is_now).symm
  · rw [gone] at is_now
    cases is_now

/-- A key that was given out and stands for no node will stand for none. -/
theorem gone (h : before.Succeeds after) {key : NodeKey} (issued : key < before.nodes.size)
    (dead : before.node? key = none) : after.node? key = none := by
  have none_there : before.kind? key = none := by rw [kind?, dead]; rfl
  have none_here : after.kind? key = none := (h.kind key issued).elim (·.trans none_there) id
  exact Option.map_eq_none_iff.mp none_here

variable (graph : Graph τ)

theorem add (node : Node τ) : graph.Succeeds (graph.add node).2 where
  size := by simp
  kind := fun key lt => .inl (by rw [kind?_add, if_neg (Nat.ne_of_lt lt)])

theorem remove (key : NodeKey) : graph.Succeeds (graph.remove key).1 where
  size := by simp
  kind := by
    intro other _
    simp only [kind?, node?_remove]
    split
    · exact .inr rfl
    · exact .inl rfl

variable [TimeAxis τ] [Fourier]

theorem perform (operation : Operation τ) :
    graph.Succeeds (graph.perform operation) := by
  cases operation with
  | addGenerator | addGain | addConstant => exact .add graph _
  | setValue => exact .of_kinds (by simp [Graph.perform]) fun _ => kind?_setValue ..
  | armStart | armStop =>
    exact .of_kinds (by simp [Graph.perform, armStart, armStop]) fun _ => kind?_modifyGenerator ..
  | connect => exact .of_kinds (by simp [Graph.perform]) fun _ => by simp [kind?, Graph.perform]
  | remove => exact .remove graph _
  | disconnect | disconnectInlet | resume | suspend | synthesize => exact .of_kinds rfl fun _ => rfl
  | render frames =>
    simp only [Graph.perform]
    split
    · rename_i rendered
      have elapsed := elapsed_render rendered
      exact .of_kinds elapsed.size elapsed.phases.kind?
    · exact .refl graph

theorem foldl (operations : List (Operation τ)) :
    graph.Succeeds (operations.foldl Graph.perform graph) :=
  List.foldlRecOn (motive := graph.Succeeds) operations _ (.refl graph)
    fun middle reached operation _ => reached.trans (.perform middle operation)

end Succeeds

/-- Does an operation render? -/
def Operation.renders : Operation τ → Bool
  | .render _ => true
  | _ => false

variable {graph : Graph τ}

/-- What an operation does to a node: nothing, unless it is about this node or renders. -/
theorem WellFormed.node?_perform [Fourier] [TimeAxis τ] (well : graph.WellFormed) {key : NodeKey}
    (issued : key < graph.nodes.size) (operation : Operation τ) :
    operation.renders = false ∧ (graph.perform operation).node? key = graph.node? key ∨
    operation = .remove key ∧ (graph.perform operation).node? key = none ∨
    (∃ knob value, operation = .setValue key knob value ∧ (graph.perform operation).node? key =
      (graph.node? key).map fun node => (node.setValue? knob value).getD node) ∨
    (∃ time, operation = .armStart key time ∧ (graph.perform operation).node? key =
      (graph.node? key).map (Node.mapGenerator fun g => { g with starts := some time })) ∨
    (∃ time, operation = .armStop key time ∧ (graph.perform operation).node? key =
      (graph.node? key).map (Node.mapGenerator fun g => { g with stops := some time })) ∨
    ∃ frames samples, operation = .render frames ∧
      graph.render frames = .ok (samples, graph.perform operation) := by
  cases operation with
  | render frames =>
    obtain ⟨samples, after, rendered⟩ := well.exists_render frames
    have performed : graph.perform (.render frames) = after := by
      simp only [Graph.perform, rendered]
    exact .inr <| .inr <| .inr <| .inr <| .inr ⟨frames, samples, rfl, performed ▸ rendered⟩
  | remove other =>
    by_cases gone : key = other ∧ other ≠ destination
    · refine .inr (.inl ⟨by rw [gone.1], ?_⟩)
      simp only [Graph.perform, node?_remove, gone, ne_eq, not_false_eq_true, and_self, if_true]
    · refine .inl ⟨rfl, ?_⟩
      simp only [Graph.perform, node?_remove, if_neg gone]
  | setValue other knob value =>
    simp only [Graph.perform, node?_setValue]
    split
    · rename_i here
      subst here
      exact .inr <| .inr <| .inl ⟨knob, value, rfl, rfl⟩
    · exact .inl ⟨rfl, rfl⟩
  | armStart other time =>
    simp only [Graph.perform, armStart, node?_modifyGenerator]
    split
    · rename_i here
      subst here
      exact .inr <| .inr <| .inr <| .inl ⟨time, rfl, rfl⟩
    · exact .inl ⟨rfl, rfl⟩
  | armStop other time =>
    simp only [Graph.perform, armStop, node?_modifyGenerator]
    split
    · rename_i here
      subst here
      exact .inr <| .inr <| .inr <| .inr <| .inl ⟨time, rfl, rfl⟩
    · exact .inl ⟨rfl, rfl⟩
  | addGenerator | addGain | addConstant =>
    refine .inl ⟨rfl, ?_⟩
    have new : key ≠ graph.nodes.size := Nat.ne_of_lt issued
    simp only [Graph.perform, addGenerator, addGain, addConstant, node?_add, if_neg new]
  | connect =>
    refine .inl ⟨rfl, ?_⟩
    simp only [Graph.perform, node?_connect]
  | disconnect | disconnectInlet | resume | suspend | synthesize =>
    exact .inl ⟨rfl, rfl⟩

/-! ### Operations that are taken or refused -/

/-- Is an operation taken? What has no answer is. -/
def takes (graph : Graph τ) : Operation τ → Bool
  | .setValue key knob value => (graph.setValue key knob value).2
  | .connect source target inlet => (graph.connect source target inlet).2
  | .armStart key time => (graph.armStart key time).2
  | .armStop key time => (graph.armStop key time).2
  | .remove key => (graph.remove key).2
  | _ => true

/-- Does an operation leave a connection, if it is taken? -/
def Operation.leaves : Operation τ → Connection → Bool
  | .disconnect source, c => c.source != source
  | .disconnectInlet target inlet, c => !(c.target == target && c.inlet == inlet)
  | .remove key, c => c.source != key && c.target != key
  | _, _ => true

/-- The connection that an operation asks for. -/
def Operation.asked : Operation τ → List Connection
  | .connect source target inlet => [⟨source, target, inlet⟩]
  | _ => []

variable {graph : Graph τ}

theorem modifyGenerator_of_refused {key : NodeKey} {f : Generator τ → Generator τ}
    (refused : (graph.modifyGenerator key f).2 = false) :
    (graph.modifyGenerator key f).1 = graph := by
  simp only [modifyGenerator] at refused ⊢
  split
  · rename_i found
    simp [found] at refused
  · rfl

variable [TimeAxis τ] [Fourier]

/-- What is refused is reported at most. -/
theorem perform_of_refused {operation : Operation τ} (refused : graph.takes operation = false) :
    graph.perform operation = graph ∨ ∃ event, graph.perform operation = graph.log event := by
  cases operation with
  | setValue key knob value =>
    left
    simp only [takes, Graph.perform, setValue] at refused ⊢
    split
    · rename_i turned
      simp [turned] at refused
    · rfl
  | connect source target inlet =>
    right
    simp only [takes, Graph.perform, connect] at refused ⊢
    split
    · rename_i admitted
      rw [if_pos admitted] at refused
      split at refused <;> cases refused
    · exact ⟨_, rfl⟩
  | armStart | armStop => exact .inl (modifyGenerator_of_refused refused)
  | remove key =>
    left
    simp only [takes, Graph.perform, Graph.remove] at refused ⊢
    split
    · rfl
    · rename_i taken
      rw [if_neg taken] at refused
      cases refused
  | _ => cases refused

/-- A key that is removed stands for no node, and it was given out before. -/
theorem node?_of_removed {key : NodeKey} (taken : graph.takes (.remove key) = true) :
    (graph.perform (.remove key)).node? key = none ∧
      key < (graph.perform (.remove key)).nodes.size := by
  have lives : key ≠ destination ∧ graph.contains key := by
    simp only [takes, Graph.remove] at taken
    split at taken
    · cases taken
    · rename_i kept
      simpa using kept
  obtain ⟨node, found⟩ := Option.isSome_iff_exists.mp lives.2
  refine ⟨?_, ?_⟩
  · simp [Graph.perform, node?_remove, lives]
  · simpa [Graph.perform] using lt_size_of_node? found

/-- Nothing that is rendered later tells of what was refused. -/
theorem heard_of_refused (well : graph.WellFormed) {operation : Operation τ}
    (refused : graph.takes operation = false) (later : List (Operation τ)) :
    (graph.perform operation).heard later = graph.heard later := by
  rcases perform_of_refused refused with same | ⟨event, logged⟩
  · rw [same]
  · rw [logged]
    -- both graphs sound as one that makes its plans anew
    obtain ⟨samples, here, anew⟩ := (SameButPlan.log well event).heardAnew later
    obtain ⟨samples', there, anew'⟩ := (SameButPlan.refl (well.log event)).heardAnew later
    rw [here, there, ← anew, ← anew']

/-- An operation that is taken puts what it asks for behind the connections that it leaves. -/
theorem connections_perform {operation : Operation τ}
    (taken : graph.takes operation = true) : (graph.perform operation).connections =
      graph.connections.filter operation.leaves ++
        operation.asked.filter (· ∉ graph.connections) := by
  have all (after : Graph τ) (same : after.connections = graph.connections) :
      after.connections = graph.connections.filter (fun _ => true) ++ [] := by
    rw [same, List.filter_true, List.append_nil]
  cases operation with
  | connect source target inlet =>
    have admitted : graph.admits ⟨source, target, inlet⟩ := by
      by_contra refused
      simp [takes, connect, refused] at taken
    let operation : Operation τ := .connect source target inlet
    have left : graph.connections.filter operation.leaves = graph.connections :=
      List.filter_true _
    rw [left]
    simp only [Graph.perform, connections_connect, admitted, true_and, Operation.asked]
    split
    · rename_i new
      simp [new]
    · rename_i old
      simp [not_not.mp old]
  | remove key =>
    simp only [takes, Graph.perform, Graph.remove] at taken ⊢
    split
    · rename_i refused
      rw [if_pos refused] at taken
      cases taken
    · exact (List.append_nil _).symm
  | disconnect | disconnectInlet => exact (List.append_nil _).symm
  | render frames =>
    refine all _ ?_
    simp only [Graph.perform]
    split
    · rename_i rendered
      exact (elapsed_render rendered).connections
    · rfl
  | setValue => exact all _ (by simp [Graph.perform])
  | armStart | armStop => exact all _ (by simp [Graph.perform, armStart, armStop])
  | addGenerator | addGain | addConstant | resume | suspend | synthesize => exact all _ rfl

omit [TimeAxis τ] [Fourier] in
/-- A connection joins two nodes that live and differ. It does not start from the destination. -/
theorem WellFormed.joined (well : graph.WellFormed) {c : Connection} (mem : c ∈ graph.connections) :
    ∃ source target, graph.node? c.source = some source ∧ graph.node? c.target = some target ∧
      c.source ≠ c.target ∧ c.source ≠ destination ∧ target.accepts c.inlet := by
  obtain ⟨⟨source, starts, output⟩, ⟨target, ends, accepts⟩, apart⟩ :=
    admits_iff.mp (well.admitted c mem)
  refine ⟨source, target, starts, ends, apart, ?_, accepts⟩
  intro same
  have kind : graph.kind? c.source = some .destination := (well.destined c.source).mpr same
  rw [kind?, starts] at kind
  cases source <;> cases kind
  cases output

/-- Whatever was done to a graph, it is well formed: its connections join nodes that live, and no
key that lives is given out again. Whatever is done to it then, a node that lives on keeps its
kind, and a key that is removed stands for no node any more. An operation that is refused changes
neither the graph nor what is rendered later, and one that is taken keeps the connections that it
leaves in order. -/
theorem stays_intact (rate : Float32) (operations : List (Operation τ)) :
    let graph := operations.foldl perform (atRate rate)
    graph.WellFormed ∧
      (∀ c ∈ graph.connections, ∃ source target, graph.node? c.source = some source ∧
        graph.node? c.target = some target ∧ c.source ≠ c.target ∧ c.source ≠ destination ∧
        target.accepts c.inlet) ∧
      (∀ key node, graph.contains key → key < (graph.add node).1) ∧
      (∀ (later : List (Operation τ)) key kind kind', graph.kind? key = some kind →
        (later.foldl perform graph).kind? key = some kind' → kind' = kind) ∧
      (∀ key, graph.takes (.remove key) → ∀ later : List (Operation τ),
        (later.foldl perform (graph.perform (.remove key))).contains key = false) ∧
      (∀ operation, graph.takes operation = false →
        (graph.perform operation).nodes = graph.nodes ∧
        (graph.perform operation).connections = graph.connections ∧
        (graph.perform operation).clock = graph.clock ∧
        ∀ later, (graph.perform operation).heard later = graph.heard later) ∧
      ∀ operation, graph.takes operation → (graph.perform operation).connections =
        graph.connections.filter operation.leaves ++
          operation.asked.filter (· ∉ graph.connections) := by
  intro graph
  have well : graph.WellFormed := ((Reachable.create rate).run operations).wellFormed
  refine ⟨well, fun c => well.joined, fun key node lives => ?_, fun later key kind kind' => ?_,
    fun key taken later => ?_, fun operation refused => ?_, fun operation => ?_⟩
  · obtain ⟨node, found⟩ := Option.isSome_iff_exists.mp lives
    exact lt_size_of_node? found
  · exact (Succeeds.foldl graph later).kind_eq
  · obtain ⟨removed, issued⟩ := node?_of_removed taken
    have gone := (Succeeds.foldl (graph.perform (.remove key)) later).gone issued removed
    simp [contains, gone]
  · refine ⟨?_, ?_, ?_, heard_of_refused well refused⟩ <;>
    · rcases perform_of_refused refused with same | ⟨event, logged⟩
      · rw [same]
      · rw [logged]
        rfl
  · exact connections_perform

end Patchbay.Graph
