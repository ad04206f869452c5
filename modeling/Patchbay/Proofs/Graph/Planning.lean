import Patchbay.Proofs.Graph.Operation
import Patchbay.Proofs.Graph.Search
import Patchbay.Wave.Transform

/-!
# What a plan renders

A plan renders the nodes from which the destination can be reached, each once and after all
that feeds it, and the destination at the end. Of the connections into these nodes it leaves
out only those that would close a cycle of connections that it keeps.
-/
namespace Patchbay

open Relation (ReflTransGen TransGen)

namespace Plan

/-- The nodes of a plan. -/
def keys (plan : Plan) : List NodeKey :=
  plan.steps.map (·.key)

/-- The connections that a plan keeps. -/
def kept (plan : Plan) : List Connection :=
  plan.steps.flatMap fun step => step.inputs.map (·.into step.key)

theorem mem_kept {plan : Plan} {c : Connection} : c ∈ plan.kept ↔
    ∃ step ∈ plan.steps, ∃ link ∈ step.inputs, link.into step.key = c := by
  simp [kept]

theorem feeds_kept {plan : Plan} {source target : NodeKey} : Feeds plan.kept source target ↔
    ∃ step ∈ plan.steps, step.key = target ∧ ∃ link ∈ step.inputs, link.source = source := by
  simp only [Feeds, mem_kept, Link.into, Connection.mk.injEq]
  constructor
  · rintro ⟨_, step, mem, link, listed, from_source, at_target, -⟩
    exact ⟨step, mem, at_target, link, listed, from_source⟩
  · rintro ⟨step, mem, at_target, link, listed, from_source⟩
    exact ⟨link.inlet, step, mem, link, listed, from_source, at_target, rfl⟩

/-- A plan renders the nodes that lead to a destination in a good order, and leaves out no
more connections than cycles need. -/
structure Orders (plan : Plan) (connections dropped : List Connection)
    (destination : NodeKey) : Prop where
  reached : ∀ key, key ∈ plan.keys ↔ ReflTransGen (Feeds connections) key destination
  once : plan.keys.Nodup
  last : plan.keys.getLast? = some destination
  earlier : ∀ before step after, plan.steps = before ++ step :: after →
    ∀ link ∈ step.inputs, link.source ∈ before.map (·.key)
  /-- A step lists the connections into its node that were not dropped, in their order. -/
  listed : ∀ step ∈ plan.steps, step.inputs =
    (incoming connections step.key).filter fun link => link.into step.key ∉ dropped
  dropped_mem : ∀ c ∈ dropped, c ∈ connections ∧ c.target ∈ plan.keys
  /-- The kept connections lead back from the target of a dropped one to its source. -/
  closes : ∀ c ∈ dropped, TransGen (Feeds plan.kept) c.target c.source
  acyclic : ∀ key, ¬ TransGen (Feeds plan.kept) key key
  /-- With any other connection between its nodes the kept ones would have a cycle. -/
  maximal : ∀ c ∈ connections, c.target ∈ plan.keys → c ∉ plan.kept →
    TransGen (Feeds (c :: plan.kept)) c.source c.source
  nothing_dropped : (∀ key, ¬ TransGen (Feeds connections) key key) → dropped = []

/-- A kept connection goes from an earlier step to a later one. -/
theorem idxOf_lt_of_feeds {plan : Plan} (once : plan.keys.Nodup)
    (earlier : ∀ before step after, plan.steps = before ++ step :: after →
      ∀ link ∈ step.inputs, link.source ∈ before.map (·.key))
    {source target : NodeKey} (feeds : Feeds plan.kept source target) :
    plan.keys.idxOf source < plan.keys.idxOf target := by
  obtain ⟨step, mem, rfl, link, listed, rfl⟩ := feeds_kept.mp feeds
  obtain ⟨before, after, split⟩ := List.append_of_mem mem
  have before_mem := earlier before step after split link listed
  have keys : plan.keys = before.map (·.key) ++ step.key :: after.map (·.key) := by
    simp [Plan.keys, split]
  rw [keys] at once ⊢
  have absent : step.key ∉ before.map (·.key) := fun again =>
    (List.nodup_append.mp once).2.2 _ again _ List.mem_cons_self rfl
  rw [List.idxOf_append_of_mem before_mem, List.idxOf_append_of_notMem absent,
    List.idxOf_cons_self, Nat.add_zero]
  exact List.idxOf_lt_length_of_mem before_mem

theorem acyclic_of_earlier {plan : Plan} (once : plan.keys.Nodup)
    (earlier : ∀ before step after, plan.steps = before ++ step :: after →
      ∀ link ∈ step.inputs, link.source ∈ before.map (·.key)) (key : NodeKey) :
    ¬ TransGen (Feeds plan.kept) key key := by
  intro cycle
  have climbs {a b : NodeKey} (path : TransGen (Feeds plan.kept) a b) :
      plan.keys.idxOf a < plan.keys.idxOf b := by
    induction path with
    | single feeds => exact idxOf_lt_of_feeds once earlier feeds
    | tail _ feeds ih => exact ih.trans (idxOf_lt_of_feeds once earlier feeds)
  exact Nat.lt_irrefl _ (climbs cycle)

end Plan

theorem Feeds.mono {some_of all : List Connection} (sub : some_of ⊆ all) {a b : NodeKey}
    (h : Feeds some_of a b) : Feeds all a b :=
  h.imp fun _ mem => sub mem

theorem incoming_nodup {connections : List Connection} (distinct : connections.Nodup)
    (key : NodeKey) : (incoming connections key).Nodup := by
  refine List.Nodup.map_on ?_ (distinct.filter _)
  intro a ha b hb same
  simp only [List.mem_filter, beq_iff_eq] at ha hb
  cases a
  cases b
  simp_all

/-! ### The search at its end -/

theorem Search.keys_eq_entered {search : Search} (empty : search.stack = []) :
    (Plan.mk search.steps).keys = search.entered := by
  simp [Plan.keys, Search.entered, empty]

namespace Search.Invariant

variable {connections : List Connection} {destination : NodeKey} {search : Search}

theorem kept_subset (inv : Invariant connections destination search) :
    (Plan.mk search.steps).kept ⊆ connections := by
  intro c kept
  obtain ⟨step, mem, link, listed, rfl⟩ := Plan.mem_kept.mp kept
  exact mem_incoming.mp ((inv.read step mem).1.subset listed)

/-- A connection into a planned node was either kept or cut. -/
theorem kept_or_cut (inv : Invariant connections destination search) {c : Connection}
    (made : c ∈ connections) (planned : c.target ∈ (Plan.mk search.steps).keys) :
    c ∈ (Plan.mk search.steps).kept ∨ c ∈ search.cut := by
  obtain ⟨step, mem, at_target⟩ := List.mem_map.mp planned
  have read : (⟨c.source, c.inlet⟩ : Link) ∈ incoming connections step.key :=
    mem_incoming.mpr (by simpa [Link.into, at_target] using made)
  rcases (inv.read step mem).2 _ read with listed | cut
  · exact .inl (Plan.mem_kept.mpr ⟨step, mem, _, listed, by simp [Link.into, at_target]⟩)
  · exact .inr (by simpa [Link.into, at_target] using cut)

variable (inv : Invariant connections destination search) (empty : search.stack = [])

include inv empty

theorem keys_nodup : (Plan.mk search.steps).keys.Nodup :=
  keys_eq_entered empty ▸ inv.once

/-- With no visit left, what closes the cycle of a cut connection is in the plan. -/
theorem closed (apart : ∀ c ∈ connections, c.source ≠ c.target) {c : Connection}
    (cut : c ∈ search.cut) :
    TransGen (Feeds (Plan.mk search.steps).kept) c.target c.source := by
  have keeps {a b : NodeKey} (h : search.Keeps a b) : Feeds (Plan.mk search.steps).kept a b := by
    rcases h with kept | ⟨visit, mem, _⟩
    · exact Plan.feeds_kept.mpr kept
    · simp [empty] at mem
  obtain ⟨made, -, -, path⟩ := inv.closes c cut
  rcases Relation.reflTransGen_iff_eq_or_transGen.mp path with same | path
  · exact absurd same (apart c made)
  · exact TransGen.mono (fun _ _ => keeps) _ _ path

/-- A connection that was both kept and cut would close a cycle of kept ones. -/
theorem not_cut_of_kept (apart : ∀ c ∈ connections, c.source ≠ c.target) {c : Connection}
    (kept : c ∈ (Plan.mk search.steps).kept) : c ∉ search.cut := fun cut =>
  Plan.acyclic_of_earlier (inv.keys_nodup empty) inv.ordered c.source
    (.head ⟨c.inlet, kept⟩ (inv.closed empty apart cut))

/-- The planned nodes hold the destination and all that feeds one of them. -/
theorem mem_keys_iff (key : NodeKey) : key ∈ (Plan.mk search.steps).keys ↔
    ReflTransGen (Feeds connections) key destination := by
  have keys := keys_eq_entered empty
  refine ⟨fun mem => inv.leads key (keys ▸ mem), fun path => ?_⟩
  induction path using ReflTransGen.head_induction_on with
  | refl => exact keys ▸ List.mem_of_getLast? inv.ends
  | head feeds _ ih =>
    obtain ⟨inlet, made⟩ := feeds
    rcases inv.kept_or_cut made ih with kept | cut
    · obtain ⟨step, mem, link, listed, same⟩ := Plan.mem_kept.mp kept
      obtain ⟨before, after, split⟩ := List.append_of_mem mem
      have source := inv.ordered before step after split link listed
      obtain rfl := (Connection.mk.inj same).1
      rw [Plan.keys, split, List.map_append]
      exact List.mem_append_left _ source
    · exact keys ▸ (inv.closes _ cut).2.1

/-- A step lists the connections into its node without the cut ones. -/
theorem inputs_eq (distinct : connections.Nodup) (apart : ∀ c ∈ connections, c.source ≠ c.target)
    {step : Step} (mem : step ∈ search.steps) : step.inputs =
      (incoming connections step.key).filter fun link => link.into step.key ∉ search.cut := by
  obtain ⟨sub, handled⟩ := inv.read step mem
  have not_cut : ∀ link ∈ step.inputs, link.into step.key ∉ search.cut := fun link listed =>
    inv.not_cut_of_kept empty apart (Plan.mem_kept.mpr ⟨step, mem, link, listed, rfl⟩)
  have within : step.inputs.Sublist
      ((incoming connections step.key).filter fun link => link.into step.key ∉ search.cut) := by
    have := sub.filter fun link => link.into step.key ∉ search.cut
    rwa [List.filter_eq_self.mpr (by simpa using not_cut)] at this
  refine within.eq_of_length_le ?_
  refine (List.subperm_of_subset ((incoming_nodup distinct _).filter _) fun link mem => ?_).length_le
  obtain ⟨read, not_cut⟩ := List.mem_filter.mp mem
  exact (handled link read).resolve_right (by simpa using not_cut)

end Search.Invariant

/-- The plan for connections that all join two different nodes and stand once. -/
theorem ofConnections_orders {connections : List Connection} (distinct : connections.Nodup)
    (apart : ∀ c ∈ connections, c.source ≠ c.target) (destination : NodeKey) :
    (Plan.ofConnections connections destination).Orders connections
      (Search.complete connections destination).cut destination := by
  obtain ⟨empty, inv⟩ := Search.complete_spec connections destination
  generalize eq : Search.complete connections destination = search at empty inv
  have plan_eq : Plan.ofConnections connections destination = ⟨search.steps⟩ := by
    simp [Plan.ofConnections, eq]
  rw [plan_eq]
  have keys := Search.keys_eq_entered empty
  constructor
  case reached => exact inv.mem_keys_iff empty
  case once => exact inv.keys_nodup empty
  case last => exact keys ▸ inv.ends
  case earlier => exact inv.ordered
  case listed => exact fun step mem => inv.inputs_eq empty distinct apart mem
  case dropped_mem => exact fun c mem => ⟨(inv.closes c mem).1, keys ▸ (inv.closes c mem).2.2.1⟩
  case closes => exact fun c mem => inv.closed empty apart mem
  case acyclic => exact Plan.acyclic_of_earlier (inv.keys_nodup empty) inv.ordered
  case maximal =>
    intro c made planned not_kept
    have cut := (inv.kept_or_cut made planned).resolve_left not_kept
    exact .head ⟨c.inlet, List.mem_cons_self⟩
      (TransGen.mono (fun _ _ => Feeds.mono (List.subset_cons_self _ _)) _ _
        (inv.closed empty apart cut))
  case nothing_dropped =>
    intro no_cycle
    refine List.eq_nil_iff_forall_not_mem.mpr fun c cut => ?_
    exact no_cycle c.source (.head ⟨c.inlet, (inv.closes c cut).1⟩
      (TransGen.mono (fun _ _ => Feeds.mono inv.kept_subset) _ _ (inv.closed empty apart cut)))

namespace Graph

theorem WellFormed.orders {τ : Type} {graph : Graph τ} (h : graph.WellFormed) :
    graph.prepare.1.Orders graph.connections
      (Search.complete graph.connections destination).cut destination := by
  rw [h.prepare_fst]
  refine ofConnections_orders h.distinct (fun c mem => ?_) destination
  exact (admits_iff.mp (h.admitted c mem)).2.2

/-- The plan of a graph that can come about, whatever cycles its wiring has. -/
theorem plan_orders [Fourier] {τ : Type} [TimeAxis τ] {graph : Graph τ}
    (reachable : graph.Reachable) :
    graph.prepare.1 = Plan.ofConnections graph.connections destination ∧
      graph.prepare.1.Orders graph.connections
        (Search.complete graph.connections destination).cut destination :=
  ⟨reachable.wellFormed.prepare_fst, reachable.wellFormed.orders⟩

/-- A constant goes through two gains that feed each other. -/
def crossed : Graph Float :=
  [.addConstant 1.0, .addGain 1.0, .addGain 1.0, .connect 1 2 .audio, .connect 2 3 .audio,
    .connect 3 2 (.knob .gain), .connect 3 0 .audio, .connect 2 0 .audio].foldl perform
    (atRate 1000.0)

theorem plan_orders_crossed : crossed.Reachable ∧
    crossed.prepare.1.steps = [⟨1, []⟩, ⟨2, [⟨1, .audio⟩]⟩, ⟨3, [⟨2, .audio⟩]⟩,
      ⟨0, [⟨3, .audio⟩, ⟨2, .audio⟩]⟩] ∧
    (Search.complete crossed.connections destination).cut = [⟨3, 2, .knob .gain⟩] ∧
    crossed.prepare.1.Orders crossed.connections
      (Search.complete crossed.connections destination).cut destination := by
  have reachable : crossed.Reachable := Reachable.run (.create _) _
  exact ⟨reachable, by decide, by decide, (plan_orders reachable).2⟩

end Graph

end Patchbay
