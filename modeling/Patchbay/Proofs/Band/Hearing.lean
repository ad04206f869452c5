import Patchbay.Proofs.Band.Ensemble
import Patchbay.Proofs.Graph.Chunks
import Patchbay.Proofs.Graph.Labels

/-!
# What is heard of a band

Nothing but the instruments of a band feeds these instruments. So in graphs that are alike for the
band they give the same samples from chunk to chunk, whatever else is rendered with them.
-/
namespace Patchbay

variable {τ : Type}

namespace Racks

variable {band : String → Prop} {f : NodeKey → NodeKey} {racks racks' : Racks}
  {graph graph' : Graph τ}

open Classical in
/-- The nodes of a band and the destination are labelled with their new keys. -/
noncomputable def label (racks : Racks) (band : String → Prop) (f : NodeKey → NodeKey)
    (key : NodeKey) : Option NodeKey :=
  if key = Graph.destination ∨ racks.Holds band key then some (f key) else none

theorem label_eq_some_iff {key name : NodeKey} : racks.label band f key = some name ↔
    (key = Graph.destination ∨ racks.Holds band key) ∧ f key = name := by
  simp [label]

theorem isSome_label_iff {key : NodeKey} : (racks.label band f key).isSome ↔
    key = Graph.destination ∨ racks.Holds band key := by
  simp [label]

/-- New keys keep the nodes of a band apart, from each other and from the destination. -/
structure Renames (racks : Racks) (band : String → Prop) (f : NodeKey → NodeKey) : Prop where
  destination : f Graph.destination = Graph.destination
  injective : ∀ key other, racks.Holds band key → racks.Holds band other → f key = f other →
    key = other
  inner : ∀ key, racks.Holds band key → f key ≠ Graph.destination

variable [Fourier]

theorem Alike.renames (alike : Alike band f racks graph racks' graph') : racks.Renames band f where
  destination := alike.destination
  injective := fun _ _ held held' same => alike.injective held held' same
  inner := by
    rintro key ⟨name, member, owned⟩
    exact alike.sound'.owned_ne_destination (alike.owns member owned)

theorem Sound.renames_id (sound : racks.Sound graph) : racks.Renames band id where
  destination := rfl
  injective := fun _ _ _ _ same => same
  inner := fun _ ⟨_, _, owned⟩ => sound.owned_ne_destination owned

omit [Fourier] in
theorem Renames.label_injective (renames : racks.Renames band f) (key other name : NodeKey)
    (named : racks.label band f key = some name) (named' : racks.label band f other = some name) :
    key = other := by
  obtain ⟨destined | held, rfl⟩ := label_eq_some_iff.mp named <;>
    obtain ⟨destined' | held', same⟩ := label_eq_some_iff.mp named'
  · rw [destined, destined']
  · rw [destined, renames.destination] at same
    exact absurd same (renames.inner other held')
  · rw [destined', renames.destination] at same
    exact absurd same.symm (renames.inner key held)
  · exact renames.injective key other held held' same.symm

/-- Whatever feeds a node of the band is of the band. -/
theorem Sound.holds_source (sound : racks.Sound graph) {c : Connection}
    (made : c ∈ graph.connections) (held : racks.Holds band c.target) :
    racks.Holds band c.source := by
  obtain ⟨name, member, owned⟩ := held
  obtain ⟨place, source, target⟩ := sound.wired c made
  rcases target with destined | target
  · exact absurd destined (sound.owned_ne_destination owned)
  · exact ⟨place, sound.owner_unique owned target ▸ member, source⟩

theorem Sound.labelling (sound : racks.Sound graph) (renames : racks.Renames band f) :
    Labelling (racks.label band f) graph.connections Graph.destination where
  fixed := label_eq_some_iff.mpr ⟨.inl rfl, renames.destination⟩
  injective := renames.label_injective
  closed := by
    intro c made inner
    obtain ⟨place, source, target⟩ := sound.wired c made
    have target := target.resolve_left inner
    rw [Bool.eq_iff_iff, isSome_label_iff, isSome_label_iff, or_iff_right inner,
      or_iff_right (sound.owned_ne_destination source)]
    refine ⟨fun ⟨name, member, owned⟩ => ?_, sound.holds_source made⟩
    exact ⟨place, sound.owner_unique owned source ▸ member, target⟩

/-- The connections of the band are what is seen of all connections. -/
theorem Sound.seen_connections (sound : racks.Sound graph) :
    graph.connections.filterMap (Connection.seen (racks.label band f)) =
      (racks.wiring band graph).map (Connection.map f) := by
  classical
  unfold wiring fromBand
  rw [← List.filterMap_eq_map, List.filterMap_filter]
  refine List.filterMap_congr fun c made => ?_
  obtain ⟨place, owned, -⟩ := sound.wired c made
  by_cases held : racks.Holds band c.source
  · have source : racks.label band f c.source = some (f c.source) :=
      label_eq_some_iff.mpr ⟨.inr held, rfl⟩
    have target : racks.label band f c.target = some (f c.target) :=
      label_eq_some_iff.mpr ⟨sound.target_of_mem_wiring (mem_wiring.mpr ⟨made, held⟩), rfl⟩
    simp [Connection.seen, source, target, held, Connection.map]
  · have source : racks.label band f c.source = none := by
      rw [label, if_neg]
      exact not_or.mpr ⟨sound.owned_ne_destination owned, held⟩
    cases target : racks.label band f c.target <;>
      simp [Connection.seen, source, target, held]

/-- What is seen of the plan is the plan for the connections of the band. -/
theorem Sound.seen_plan (sound : racks.Sound graph) (renames : racks.Renames band f) :
    (Plan.ofConnections ((racks.wiring band graph).map (Connection.map f))
        Graph.destination).steps =
      graph.prepare.1.steps.filterMap (Step.seen (racks.label band f)) := by
  rw [sound.wellFormed.prepare_fst, (sound.labelling renames).steps_seen, sound.seen_connections]

/-- The nodes of the band, and the destination if there are no other instruments. -/
def Within (racks : Racks) (band : String → Prop) (key : NodeKey) : Prop :=
  racks.Holds band key ∨ key = Graph.destination ∧ ∀ name, band name

omit [Fourier] in
theorem Within.labelled {key : NodeKey} (within : racks.Within band key) :
    racks.label band f key = some (f key) :=
  label_eq_some_iff.mpr ⟨within.symm.imp_left And.left, rfl⟩

theorem Sound.enclosed (sound : racks.Sound graph) (renames : racks.Renames band f) :
    Enclosed (racks.label band f) (racks.Within band) graph.prepare.1.steps where
  named := fun key within => ⟨f key, within.labelled⟩
  injective := renames.label_injective
  closed := by
    intro step planned within link listed
    rw [sound.wellFormed.orders.listed step planned] at listed
    obtain ⟨c, made, rfl⟩ := List.mem_map.mp (List.mem_filter.mp listed).1
    obtain ⟨made, into⟩ := List.mem_filter.mp made
    have into : c.target = step.key := by simpa using into
    rcases within with held | ⟨-, all⟩
    · exact .inl (sound.holds_source made (into ▸ held))
    · obtain ⟨place, owned, -⟩ := sound.wired c made
      exact .inl ⟨place, all place, owned⟩

theorem Within.map (alike : Alike band f racks graph racks' graph') {key : NodeKey}
    (within : racks.Within band key) : racks'.Within band (f key) := by
  rcases within with held | ⟨rfl, all⟩
  · exact .inl (alike.holds held)
  · exact .inr ⟨alike.destination, all⟩

theorem Sound.destination_node (sound : racks.Sound graph) :
    graph.node? Graph.destination = some .destination := by
  have kind := (sound.wellFormed.destined Graph.destination).mpr rfl
  obtain ⟨node, found, destined⟩ := Option.map_eq_some_iff.mp kind
  cases node <;> first | exact found | cases destined

theorem Alike.seen_nodes (alike : Alike band f racks graph racks' graph') :
    SeenAlike (racks.label band f) (racks.Within band) graph.node? graph'.node? := by
  intro key name within named
  obtain ⟨-, rfl⟩ := label_eq_some_iff.mp named
  rcases within with held | ⟨rfl, -⟩
  · exact alike.nodes key held
  · rw [alike.destination, alike.sound'.destination_node, alike.sound.destination_node]

omit [Fourier] in
theorem seenAlike_id (nodes : NodeKey → Option (Node τ)) :
    SeenAlike (racks.label band id) (racks.Within band) nodes nodes := by
  intro key name _ named
  obtain ⟨-, rfl⟩ := label_eq_some_iff.mp named
  rfl

/-- The plans of both graphs are seen as the same. -/
theorem Alike.seen_plan (alike : Alike band f racks graph racks' graph') :
    (Plan.ofConnections ((racks.wiring band graph).map (Connection.map f))
        Graph.destination).steps =
      graph'.prepare.1.steps.filterMap (Step.seen (racks'.label band id)) := by
  rw [← alike.sound'.seen_plan alike.sound'.renames_id, alike.wiring, List.map_map]
  rfl

section Chunks

variable [TimeAxis τ] (alike : Alike band f racks graph racks' graph')

include alike

theorem Alike.block : graph'.block = graph.block := by
  simp only [Graph.block, Graph.now, alike.rate, alike.clock]

/-- In every frame of a chunk, the nodes of the band are the same. -/
theorem Alike.nodesAt (i : Nat) {key : NodeKey} (within : racks.Within band key) :
    (graph'.prepare.1.nodesAt graph'.block graph'.node? i (f key)).map Node.unnumbered =
      (graph.prepare.1.nodesAt graph.block graph.node? i key).map Node.unnumbered := by
  have here := (alike.sound.enclosed alike.renames).nodesAt_seen
    (alike.sound.seen_plan alike.renames) graph.block alike.seen_nodes i
  have there := (alike.sound'.enclosed alike.sound'.renames_id).nodesAt_seen alike.seen_plan
    graph.block (seenAlike_id graph'.node?) i
  rw [alike.block, ← here key (f key) within within.labelled,
    ← there (f key) (f key) (within.map alike) (within.map alike).labelled]

/-- They give the same samples. -/
theorem Alike.sampleAt (i : Nat) {key : NodeKey} (within : racks.Within band key) :
    graph'.sampleAt i (f key) = graph.sampleAt i key := by
  have here := (alike.sound.enclosed alike.renames).sampleAt_seen
    (alike.sound.seen_plan alike.renames) graph.block alike.seen_nodes i within within.labelled
  have there := (alike.sound'.enclosed alike.sound'.renames_id).sampleAt_seen alike.seen_plan
    graph.block (seenAlike_id graph'.node?) i (within.map alike) (within.map alike).labelled
  unfold Graph.sampleAt
  rw [alike.block, ← here]
  exact there.symm

/-- A chunk is rendered in both graphs. -/
theorem Alike.chunk {n : Nat} (fits : n ≤ maxBlockSize) :
    ∃ after after', graph.renderChunk n =
        .ok ((List.range n).map fun i => graph.sampleAt i Graph.destination, after) ∧
      graph'.renderChunk n =
        .ok ((List.range n).map fun i => graph'.sampleAt i Graph.destination, after') ∧
      graph.Chunked n after ∧ graph'.Chunked n after' ∧ Alike band f racks after racks' after' := by
  obtain ⟨after, run, chunked⟩ := alike.sound.wellFormed.chunk fits
  obtain ⟨after', run', chunked'⟩ := alike.sound'.wellFormed.chunk fits
  have steady := (Graph.elapsed_renderChunk run).steady
  have steady' := (Graph.elapsed_renderChunk run').steady
  refine ⟨after, after', run, run', chunked, chunked', alike.recast (alike.sound.steady steady)
    (alike.sound'.steady steady') ?_ steady.connections steady'.connections fun key held => ?_⟩
  · rw [chunked.rest, chunked'.rest, alike.clock]
  · rw [chunked.node, chunked'.node]
    exact alike.nodesAt n (.inl held)

/-- Chunks in a row are rendered in both graphs. -/
theorem Alike.renderChunks {sizes : List Nat} (fits : ∀ n ∈ sizes, n ≤ maxBlockSize) :
    ∃ samples samples' after after', graph.renderChunks sizes = .ok (samples, after) ∧
      graph'.renderChunks sizes = .ok (samples', after') ∧ Alike band f racks after racks' after' ∧
      ((∀ name, band name) → samples' = samples) := by
  induction sizes generalizing graph graph' with
  | nil => exact ⟨[], [], graph, graph', rfl, rfl, alike, fun _ => rfl⟩
  | cons n rest ih =>
    obtain ⟨middle, middle', run, run', -, -, onward⟩ := alike.chunk (fits n List.mem_cons_self)
    obtain ⟨samples, samples', after, after', runs, runs', last, same⟩ :=
      ih onward fun size mem => fits size (List.mem_cons_of_mem n mem)
    refine ⟨_ ++ samples, _ ++ samples', after, after',
      Graph.renderChunks_cons.mpr ⟨_, _, _, run, runs, rfl⟩,
      Graph.renderChunks_cons.mpr ⟨_, _, _, run', runs', rfl⟩, last, fun all => ?_⟩
    have here : ((List.range n).map fun i => graph'.sampleAt i Graph.destination) =
        (List.range n).map fun i => graph.sampleAt i Graph.destination := by
      refine List.map_congr_left fun i _ => ?_
      have heard := alike.sampleAt i (.inr ⟨rfl, all⟩)
      rwa [alike.destination] at heard
    rw [here, same all]

/-- Frames are rendered in both graphs, and if there are no other instruments they are the same. -/
theorem Alike.render (n : Nat) :
    ∃ samples samples' after after', graph.render n = .ok (samples, after) ∧
      graph'.render n = .ok (samples', after') ∧ Alike band f racks after racks' after' ∧
      ((∀ name, band name) → samples' = samples) := by
  unfold Graph.render
  rw [alike.clock]
  split
  · exact alike.renderChunks fun size mem => Graph.le_of_mem_chunks mem
  · exact ⟨_, _, graph, graph', rfl, rfl, alike, fun _ => rfl⟩

end Chunks

end Racks

/-! ### Whole runs -/

namespace Transport

variable [TimeAxis τ] [Fourier] {band : String → Prop} {transport other : Transport τ}

/-- The same is done, but that projects need agree on a band only. -/
def Operation.AgreesOn (band : String → Prop) : Operation τ → Operation τ → Prop
  | .reconcile project, .reconcile other => project.AgreesOn band other
  | operation, other => other = operation

/-- What is observed of each rendering while operations are done. -/
def observed {α : Type} (observe : Transport τ → Nat → α) (transport : Transport τ) :
    List (Operation τ) → List α
  | [] => []
  | .render n :: rest => observe transport n :: (transport.perform (.render n)).observed observe rest
  | operation :: rest => (transport.perform operation).observed observe rest

namespace Unison

theorem render (unison : Unison band transport other) (n : Nat) :
    ∃ samples samples' next next', transport.render n = .ok (samples, next) ∧
      other.render n = .ok (samples', next') ∧ Unison band next next' ∧
      ((∀ name, band name) → samples' = samples) := by
  obtain ⟨f, alike⟩ := unison.alike
  obtain ⟨samples, samples', after, after', run, run', onward, same⟩ := alike.render n
  exact ⟨samples, samples', { transport with graph := after }, { other with graph := after' },
    by simp only [Transport.render, run]; rfl, by simp only [Transport.render, run']; rfl,
    ⟨⟨f, onward⟩, unison.state, unison.location⟩, same⟩

/-- Operations that agree keep transports in unison. -/
theorem perform (unison : Unison band transport other)
    (fits : binCount transport.graph.rate ≤ Partials.maxBins) {operation operation' : Operation τ}
    (agrees : operation.AgreesOn band operation') :
    Unison band (transport.perform operation) (other.perform operation') := by
  cases operation with
  | play =>
    cases agrees
    exact unison.play
  | pause =>
    cases agrees
    exact unison.pause
  | reset =>
    cases agrees
    exact unison.reset
  | seek position =>
    cases agrees
    exact unison.seek position
  | render n =>
    cases agrees
    obtain ⟨samples, samples', next, next', run, run', onward, -⟩ := unison.render n
    simpa only [Transport.perform, run, run'] using onward
  | reconcile project =>
    cases operation' with
    | reconcile project' =>
      obtain ⟨next, next', run, run', onward⟩ := unison.reconcile agrees fits
      simpa only [Transport.perform, run, run', Attempt.done] using onward
    | _ => cases agrees

/-- What is the same of every rendering in unison is the same through whole runs. -/
theorem observed_eq {α : Type} {observe : Transport τ → Nat → Except Fault α}
    (same : ∀ (transport other : Transport τ) n, Unison band transport other →
      ∃ value, observe transport n = .ok value ∧ observe other n = .ok value)
    (unison : Unison band transport other)
    (fits : binCount transport.graph.rate ≤ Partials.maxBins)
    {operations operations' : List (Operation τ)}
    (agree : List.Forall₂ (Operation.AgreesOn band) operations operations') :
    ∃ values : List α, transport.observed observe operations = values.map .ok ∧
      other.observed observe operations' = values.map .ok := by
  induction agree generalizing transport other with
  | nil => exact ⟨[], rfl, rfl⟩
  | @cons operation operation' rest rest' agrees _ ih =>
    have rate := unison.sound.rate_perform operation
    obtain ⟨values, onward, onward'⟩ := ih (unison.perform fits agrees) (rate ▸ fits)
    cases operation with
    | render n =>
      cases agrees
      obtain ⟨value, here, there⟩ := same transport other n unison
      exact ⟨value :: values, by rw [observed, here, onward, List.map_cons],
        by rw [observed, there, onward', List.map_cons]⟩
    | reconcile project =>
      cases operation' with
      | reconcile project' => exact ⟨values, onward, onward'⟩
      | _ => cases agrees
    | _ =>
      cases agrees
      exact ⟨values, onward, onward'⟩

end Unison

end Transport

end Patchbay
