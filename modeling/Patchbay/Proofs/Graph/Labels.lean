import Patchbay.Proofs.Graph.Evaluation
import Patchbay.Proofs.Wave.Memos

/-!
# A part of a graph under other keys

Some nodes of a graph have labels, which are keys again. Where every node but the destination is fed
by nodes with labels only, or by none that has one, the search for a plan takes the nodes with labels
in the order in which it would take them if there was nothing else in the graph, and it keeps and
cuts the same connections. So the signals of these nodes do not hang on the rest of the graph.
-/
namespace Patchbay

open Relation (ReflTransGen)

/-! ### What is seen through labels -/

section Seen

variable (label : NodeKey → Option NodeKey)

/-- A link under the label of its source. -/
def Link.seen (link : Link) : Option Link :=
  (label link.source).map fun source => ⟨source, link.inlet⟩

/-- A connection under the labels of its ends. -/
def Connection.seen (c : Connection) : Option Connection :=
  (label c.target).bind fun target => (label c.source).map fun source => ⟨source, target, c.inlet⟩

def Visit.seen (visit : Visit) : Option Visit :=
  (label visit.key).map fun key =>
    ⟨key, visit.pending.filterMap (Link.seen label), visit.kept.filterMap (Link.seen label)⟩

def Step.seen (step : Step) : Option Step :=
  (label step.key).map fun key => ⟨key, step.inputs.filterMap (Link.seen label)⟩

/-- A search without the nodes that have no label. -/
def Search.seen (search : Search) : Search where
  stack := search.stack.filterMap (Visit.seen label)
  visited := search.visited.filterMap label
  onPath := search.onPath.filterMap label
  steps := search.steps.filterMap (Step.seen label)
  cut := search.cut.filterMap (Connection.seen label)

/-- No two nodes have one label, the destination keeps its key, and the nodes with labels are fed
by each other alone, but for the destination. -/
structure Labelling (connections : List Connection) (destination : NodeKey) : Prop where
  fixed : label destination = some destination
  injective : ∀ key other name, label key = some name → label other = some name → key = other
  closed : ∀ c ∈ connections, c.target ≠ destination →
    (label c.source).isSome = (label c.target).isSome

end Seen

namespace Labelling

variable {label : NodeKey → Option NodeKey} {connections : List Connection}
  {destination key name : NodeKey} {search next : Search}

theorem mem_filterMap (labelling : Labelling label connections destination)
    (named : label key = some name) (keys : List NodeKey) :
    name ∈ keys.filterMap label ↔ key ∈ keys := by
  rw [List.mem_filterMap]
  constructor
  · rintro ⟨other, mem, same⟩
    rwa [labelling.injective key other name named same]
  · exact fun mem => ⟨key, mem, named⟩

/-- What goes into a node is seen as what goes into its label. -/
theorem incoming_seen (labelling : Labelling label connections destination)
    (named : label key = some name) (wires : List Connection) :
    (incoming wires key).filterMap (Link.seen label) =
      incoming (wires.filterMap (Connection.seen label)) name := by
  induction wires with
  | nil => rfl
  | cons c rest ih =>
    unfold incoming at ih ⊢
    by_cases here : c.target = key
    · rw [List.filter_cons_of_pos (by simpa using here), List.map_cons]
      cases source : label c.source with
      | none =>
        have unseen : c.seen label = none := by simp [Connection.seen, source]
        rw [List.filterMap_cons_none (by simp [Link.seen, source]),
          List.filterMap_cons_none unseen, ih]
      | some from_name =>
        have seen : c.seen label = some ⟨from_name, name, c.inlet⟩ := by
          simp [Connection.seen, source, here, named]
        have link_seen : (Link.mk c.source c.inlet).seen label = some ⟨from_name, c.inlet⟩ := by
          simp [Link.seen, source]
        rw [List.filterMap_cons_some link_seen, List.filterMap_cons_some seen,
          List.filter_cons_of_pos (by simp), List.map_cons, ih]
    · rw [List.filter_cons_of_neg (by simpa using here), ih]
      cases seen : c.seen label with
      | none => rw [List.filterMap_cons_none seen]
      | some under =>
        rw [List.filterMap_cons_some seen, List.filter_cons_of_neg]
        obtain ⟨target, to_name, rest⟩ := Option.bind_eq_some_iff.mp seen
        obtain ⟨source, -, rfl⟩ := Option.map_eq_some_iff.mp rest
        simp only [beq_iff_eq]
        rintro rfl
        exact here (labelling.injective _ _ _ to_name named)

theorem enter_seen (labelling : Labelling label connections destination)
    (named : label key = some name) : (Search.enter connections key).seen label =
      some (Search.enter (connections.filterMap (Connection.seen label)) name) := by
  simp only [Visit.seen, Search.enter, named, Option.map_some, List.filterMap_nil,
    labelling.incoming_seen named]

theorem start_seen (labelling : Labelling label connections destination) :
    (Search.start connections destination).seen label =
      Search.start (connections.filterMap (Connection.seen label)) destination := by
  have named := labelling.fixed
  simp [Search.seen, Search.start, labelling.enter_seen named, named]

/-- A visit of a node without a label ends unseen. -/
theorem leave_unseen {visit : Visit} {below : List Visit} (top : search.stack = visit :: below)
    (path : search.onPath = search.stack.map (·.key)) (unnamed : label visit.key = none) :
    Search.seen label { search with
      stack := below
      onPath := search.onPath.erase visit.key
      steps := search.steps ++ [⟨visit.key, visit.kept⟩] } = search.seen label := by
  have unseen : visit.seen label = none := by simp [Visit.seen, unnamed]
  simp [Search.seen, top, path, unseen, unnamed, Step.seen]

/-- A visit of a node with a label ends where it does under the labels. -/
theorem leave_seen {visit : Visit} {below : List Visit} (top : search.stack = visit :: below)
    (path : search.onPath = search.stack.map (·.key)) (none_left : visit.pending = [])
    (named : label visit.key = some name) (wires : List Connection) :
    (search.seen label).advance wires = some (Search.seen label { search with
      stack := below
      onPath := search.onPath.erase visit.key
      steps := search.steps ++ [⟨visit.key, visit.kept⟩] }) := by
  have seen : visit.seen label = some ⟨name, [], visit.kept.filterMap (Link.seen label)⟩ := by
    simp [Visit.seen, named, none_left]
  simp [Search.seen, Search.advance, top, path, seen, named, Step.seen]

/-- One advance is not seen, or it is an advance under the labels. -/
theorem move_seen (labelling : Labelling label connections destination)
    (inv : Search.Invariant connections destination search)
    (move : Search.Move connections search next) :
    next.seen label = search.seen label ∨
      (search.seen label).advance (connections.filterMap (Connection.seen label)) =
        some (next.seen label) := by
  -- nodes without labels are fed by such nodes alone
  have closed {visit : Visit} {below : List Visit} {link : Link} {rest : List Link}
      (top : search.stack = visit :: below) (pending : visit.pending = link :: rest)
      (unnamed : label visit.key = none) : label link.source = none := by
    have made : link.into visit.key ∈ connections :=
      inv.mem_of_pending (by simp [top]) (by simp [pending])
    have inner : visit.key ≠ destination := by
      intro same
      rw [same, labelling.fixed] at unnamed
      cases unnamed
    have both := labelling.closed _ made inner
    simpa [Link.into, unnamed] using both
  cases move with
  | leave visit below top none_left =>
    cases named : label visit.key with
    | none => exact .inl (leave_unseen top inv.path named)
    | some name => exact .inr (leave_seen top inv.path none_left named _)
  | cut visit below link rest top pending cyclic =>
    cases named : label visit.key with
    | none =>
      left
      simp [Search.seen, top, Visit.seen, Connection.seen, Link.into, named]
    | some name =>
      cases source : label link.source with
      | none =>
        left
        simp [Search.seen, top, Visit.seen, Connection.seen, Link.into, named, pending, Link.seen,
          source]
      | some from_name =>
        right
        have cyclic := (labelling.mem_filterMap source _).mpr cyclic
        simp [Search.seen, Search.advance, top, Visit.seen, Connection.seen, Link.into, named,
          pending, Link.seen, source, cyclic]
  | keep visit below link rest top pending acyclic known =>
    cases named : label visit.key with
    | none =>
      left
      simp [Search.seen, top, Visit.seen, named]
    | some name =>
      cases source : label link.source with
      | none =>
        left
        simp [Search.seen, top, Visit.seen, named, pending, Link.seen, source]
      | some from_name =>
        right
        have acyclic := mt (labelling.mem_filterMap source _).mp acyclic
        have known := (labelling.mem_filterMap source _).mpr known
        simp [Search.seen, Search.advance, top, Visit.seen, named, pending, Link.seen, source,
          acyclic, known]
  | enter visit below link rest top pending unknown =>
    have off_path : link.source ∉ search.onPath := by
      intro mem
      refine unknown ((inv.visited _).mpr (List.mem_append_right _ ?_))
      rwa [← inv.path]
    cases source : label link.source with
    | none =>
      left
      have unseen : (Search.enter connections link.source).seen label = none := by
        simp [Visit.seen, Search.enter, source]
      cases named : label visit.key with
      | none =>
        simp [Search.seen, top, List.filterMap_cons_none unseen, Visit.seen, named, source]
      | some name =>
        simp [Search.seen, top, List.filterMap_cons_none unseen, Visit.seen, named, pending,
          Link.seen, source]
    | some from_name =>
      have named : label visit.key ≠ none := fun unnamed => by
        rw [closed top pending unnamed] at source
        cases source
      obtain ⟨name, named⟩ := Option.ne_none_iff_exists'.mp named
      right
      have acyclic := mt (labelling.mem_filterMap source _).mp off_path
      have unknown := mt (labelling.mem_filterMap source _).mp unknown
      simp [Search.seen, Search.advance, top, List.filterMap_cons_some (labelling.enter_seen source),
        Visit.seen, named, pending, Link.seen, source, acyclic, unknown]

end Labelling

/-! ### The search to its end -/

namespace Search

/-- One advance leads from a search to the next. -/
def Advances (connections : List Connection) (search next : Search) : Prop :=
  search.advance connections = some next

variable {connections : List Connection} {destination : NodeKey} {search ended other : Search}

theorem advances_run (connections : List Connection) (budget : Nat) (search : Search) :
    ReflTransGen (Advances connections) search (run connections budget search) := by
  induction budget generalizing search with
  | zero => exact .refl
  | succ budget ih =>
    rw [run]
    split
    · exact .refl
    · rename_i next moved
      exact .head moved (ih next)

/-- A search that has come to its end goes nowhere else. -/
theorem eq_of_ended (empty : ended.stack = [])
    (path : ReflTransGen (Advances connections) ended other) : other = ended := by
  rcases ReflTransGen.cases_head path with same | ⟨next, moved, -⟩
  · exact same.symm
  · rw [Advances, advance_eq_none_iff.mpr empty] at moved
    cases moved

/-- There is one end. -/
theorem ended_unique (path : ReflTransGen (Advances connections) search ended)
    (empty : ended.stack = []) (path' : ReflTransGen (Advances connections) search other)
    (empty' : other.stack = []) : ended = other := by
  have unique : Relator.RightUnique (Advances connections) := fun search next next' here there =>
    Option.some.inj ((Eq.symm here).trans there)
  rcases ReflTransGen.total_of_right_unique unique path path' with onward | onward
  · exact (eq_of_ended empty onward).symm
  · exact eq_of_ended empty' onward

end Search

namespace Labelling

variable {label : NodeKey → Option NodeKey} {connections : List Connection}
  {destination key name : NodeKey} {search : Search}

theorem advances_seen (labelling : Labelling label connections destination)
    (inv : Search.Invariant connections destination search) (budget : Nat) :
    ReflTransGen (Search.Advances (connections.filterMap (Connection.seen label)))
      (search.seen label) ((Search.run connections budget search).seen label) := by
  induction budget generalizing search with
  | zero => exact .refl
  | succ budget ih =>
    rw [Search.run]
    split
    · exact .refl
    · rename_i next moved
      have move := Search.move_of_advance moved
      have onward := ih (inv.move move)
      rcases labelling.move_seen inv move with same | seen
      · rwa [same] at onward
      · exact .head seen onward

/-- The complete search is seen as the complete search of what is seen of the connections. -/
theorem complete_seen (labelling : Labelling label connections destination) :
    (Search.complete connections destination).seen label =
      Search.complete (connections.filterMap (Connection.seen label)) destination := by
  have path := labelling.advances_seen (Search.invariant_start connections destination)
    (Search.budget connections)
  rw [labelling.start_seen] at path
  have ended : ((Search.complete connections destination).seen label).stack = [] := by
    simp [Search.seen, (Search.complete_spec connections destination).1]
  exact Search.ended_unique path ended (Search.advances_run _ _ _)
    (Search.complete_spec _ destination).1

/-- So is the plan. -/
theorem steps_seen (labelling : Labelling label connections destination) :
    (Plan.ofConnections connections destination).steps.filterMap (Step.seen label) =
      (Plan.ofConnections (connections.filterMap (Connection.seen label)) destination).steps :=
  congrArg Search.steps labelling.complete_seen

end Labelling

/-! ### Frames under labels -/

section Frames

variable {τ : Type} [TimeAxis τ]

/-- The serial number of a wave cannot be heard. -/
theorem Node.frame_unnumbered (rate : Float32) (time : τ) (input modulation : Float32)
    (node : Node τ) : node.unnumbered.frame rate time input modulation =
      ((node.frame rate time input modulation).1,
        (node.frame rate time input modulation).2.unnumbered) := by
  cases node with
  | generator g =>
    have same : Generator.isSounding { g with serial := 0 } time = g.isSounding time := rfl
    simp only [Node.unnumbered, Node.mapGenerator, Node.frame_generator, Generator.frame, same]
    split <;> rfl
  | gain factor => rfl
  | constant level => rfl
  | destination => rfl

theorem Node.frame_congr {node node' : Node τ} (same : node'.unnumbered = node.unnumbered)
    (rate : Float32) (time : τ) (input modulation : Float32) :
    (node'.frame rate time input modulation).1 = (node.frame rate time input modulation).1 ∧
      (node'.frame rate time input modulation).2.unnumbered =
        (node.frame rate time input modulation).2.unnumbered := by
  have here := node.frame_unnumbered rate time input modulation
  rw [← same, node'.frame_unnumbered] at here
  exact Prod.mk.inj here

variable {label : NodeKey → Option NodeKey}

theorem total_seen {signal signal' : NodeKey → Float32} {links : List Link}
    (same : ∀ link ∈ links, ∃ name, label link.source = some name ∧
      signal' name = signal link.source) :
    total signal' (links.filterMap (Link.seen label)) = total signal links := by
  unfold total
  generalize (0.0 : Float32) = sum
  induction links generalizing sum with
  | nil => rfl
  | cons link rest ih =>
    obtain ⟨name, named, heard⟩ := same link List.mem_cons_self
    have seen : link.seen label = some ⟨name, link.inlet⟩ := by simp [Link.seen, named]
    rw [List.filterMap_cons_some seen, List.foldl_cons, List.foldl_cons, heard]
    exact ih (fun other mem => same other (List.mem_cons_of_mem _ mem)) _

/-- Links keep their inlets. -/
theorem filter_seen (p : Inlet → Bool) (links : List Link) :
    (links.filterMap (Link.seen label)).filter (fun link => p link.inlet) =
      (links.filter fun link => p link.inlet).filterMap (Link.seen label) := by
  rw [List.filter_filterMap, List.filterMap_filter]
  refine List.filterMap_congr fun link _ => ?_
  cases named : label link.source <;> simp [Link.seen, named, Option.filter_some]

/-- Some of the nodes with labels: they are fed by each other alone. -/
structure Enclosed (label : NodeKey → Option NodeKey) (inside : NodeKey → Prop)
    (steps : List Step) : Prop where
  named : ∀ key, inside key → ∃ name, label key = some name
  injective : ∀ key other name, label key = some name → label other = some name → key = other
  closed : ∀ step ∈ steps, inside step.key → ∀ link ∈ step.inputs, inside link.source

/-- The nodes are the same under their labels, but for the serial numbers of waves. -/
def SeenAlike (label : NodeKey → Option NodeKey) (inside : NodeKey → Prop)
    (nodes nodes' : NodeKey → Option (Node τ)) : Prop :=
  ∀ key name, inside key → label key = some name →
    (nodes' name).map Node.unnumbered = (nodes key).map Node.unnumbered

variable {inside : NodeKey → Prop} {nodes nodes' : NodeKey → Option (Node τ)}

/-- The frames of enclosed nodes are the same under their labels. -/
theorem Enclosed.frameOf_seen {steps : List Step} (enclosed : Enclosed label inside steps)
    (alike : SeenAlike label inside nodes nodes') (rate : Float32) (time : τ) {key name : NodeKey}
    (within : inside key) (named : label key = some name) :
    (frameOf rate time nodes' (steps.filterMap (Step.seen label)) name).map
        (Prod.map id Node.unnumbered) =
      (frameOf rate time nodes steps key).map (Prod.map id Node.unnumbered) := by
  induction steps generalizing key name with
  | nil => rfl
  | cons step earlier ih =>
    have rest : Enclosed label inside earlier :=
      ⟨enclosed.named, enclosed.injective, fun other mem =>
        enclosed.closed other (List.mem_cons_of_mem _ mem)⟩
    by_cases here : step.key = key
    · subst here
      have seen : step.seen label = some ⟨name, step.inputs.filterMap (Link.seen label)⟩ := by
        simp [Step.seen, named]
      -- the node hears the same from each of its sources
      let signal (source : NodeKey) : Float32 :=
        ((frameOf rate time nodes earlier source).map (·.1)).getD 0.0
      let signal' (source : NodeKey) : Float32 :=
        ((frameOf rate time nodes' (earlier.filterMap (Step.seen label)) source).map (·.1)).getD 0.0
      have same (link : Link) (mem : link ∈ step.inputs) :
          ∃ name, label link.source = some name ∧ signal' name = signal link.source := by
        have source_within := enclosed.closed step List.mem_cons_self within link mem
        obtain ⟨source_name, source_named⟩ := enclosed.named _ source_within
        refine ⟨source_name, source_named, ?_⟩
        have frames := congrArg (Option.map Prod.fst) (ih rest source_within source_named)
        simp only [Option.map_map] at frames
        exact congrArg (Option.getD · 0.0) frames
      have totals (p : Inlet → Bool) :
          total signal' ((step.inputs.filterMap (Link.seen label)).filter fun link => p link.inlet) =
            total signal (step.inputs.filter fun link => p link.inlet) := by
        rw [filter_seen]
        exact total_seen fun link mem => same link (List.mem_filter.mp mem).1
      have audio := totals (· == .audio)
      have modulation := totals (· != .audio)
      rw [List.filterMap_cons_some seen, frameOf, frameOf, if_pos rfl, if_pos rfl]
      simp only [Step.audio, Step.modulation]
      have node := alike step.key name within named
      show Option.map _ (Option.map (fun node : Node τ => node.frame rate time (total signal' _)
        (total signal' _)) _) = Option.map _ (Option.map (fun node : Node τ => node.frame rate time
          (total signal _) (total signal _)) _)
      rw [audio, modulation]
      cases found : nodes step.key with
      | none =>
        rw [found] at node
        rw [Option.map_eq_none_iff.mp node]
      | some here =>
        rw [found] at node
        obtain ⟨there, found', unnumbered⟩ := Option.map_eq_some_iff.mp node
        obtain ⟨sample, moved⟩ := Node.frame_congr unnumbered rate time
          (total signal (step.inputs.filter fun link => link.inlet == .audio))
          (total signal (step.inputs.filter fun link => link.inlet != .audio))
        rw [found']
        exact congrArg some (Prod.ext sample moved)
    · rw [frameOf, if_neg here, ← ih rest within named]
      cases other : label step.key with
      | none => rw [List.filterMap_cons_none (by simp [Step.seen, other])]
      | some other_name =>
        have seen : step.seen label =
            some ⟨other_name, step.inputs.filterMap (Link.seen label)⟩ := by
          simp [Step.seen, other]
        rw [List.filterMap_cons_some seen, frameOf, if_neg]
        rintro rfl
        exact here (enclosed.injective _ _ _ other named)

section Blocks

variable {plan plan' : Plan} (enclosed : Enclosed label inside plan.steps)
  (seen : plan'.steps = plan.steps.filterMap (Step.seen label))

include enclosed seen

theorem Enclosed.frameOf_plan (alike : SeenAlike label inside nodes nodes') (rate : Float32)
    (time : τ) {key name : NodeKey} (within : inside key) (named : label key = some name) :
    (frameOf rate time nodes' plan'.steps.reverse name).map (Prod.map id Node.unnumbered) =
      (frameOf rate time nodes plan.steps.reverse key).map (Prod.map id Node.unnumbered) := by
  have reversed : Enclosed label inside plan.steps.reverse :=
    ⟨enclosed.named, enclosed.injective, fun step mem =>
      enclosed.closed step (List.mem_reverse.mp mem)⟩
  rw [seen, ← List.filterMap_reverse]
  exact reversed.frameOf_seen alike rate time within named

/-- Enclosed nodes stay alike from frame to frame. -/
theorem Enclosed.nodesAt_seen (block : Block τ) (alike : SeenAlike label inside nodes nodes')
    (i : Nat) :
    SeenAlike label inside (plan.nodesAt block nodes i) (plan'.nodesAt block nodes' i) := by
  induction i with
  | zero => exact alike
  | succ i ih =>
    intro key name within named
    have frames := enclosed.frameOf_plan seen ih block.rate (block.timeAt i) within named
    have still := ih key name within named
    show Option.map _ (Option.or (Option.map (·.2) (frameOf _ _ _ _ _)) _) =
      Option.map _ (Option.or (Option.map (·.2) (frameOf _ _ _ _ _)) _)
    cases here : frameOf block.rate (block.timeAt i) (plan.nodesAt block nodes i)
        plan.steps.reverse key with
    | none =>
      rw [here] at frames
      rw [Option.map_eq_none_iff.mp frames]
      exact still
    | some frame =>
      rw [here] at frames
      obtain ⟨frame', found, same⟩ := Option.map_eq_some_iff.mp frames
      rw [found]
      exact congrArg (fun frame => some (Prod.snd frame)) same

/-- They give the same samples. -/
theorem Enclosed.sampleAt_seen (block : Block τ) (alike : SeenAlike label inside nodes nodes')
    (i : Nat) {key name : NodeKey} (within : inside key) (named : label key = some name) :
    plan'.sampleAt block nodes' i name = plan.sampleAt block nodes i key := by
  have frames := enclosed.frameOf_plan seen (enclosed.nodesAt_seen seen block alike i) block.rate
    (block.timeAt i) within named
  have samples := congrArg (Option.map Prod.fst) frames
  simp only [Option.map_map] at samples
  exact congrArg (Option.getD · 0.0) samples

end Blocks

end Frames

end Patchbay
