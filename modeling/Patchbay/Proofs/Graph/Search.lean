import Mathlib.Algebra.BigOperators.Group.List.Basic
import Mathlib.Algebra.GroupWithZero.Nat
import Mathlib.Data.List.Chain
import Mathlib.Data.List.Nodup
import Mathlib.Logic.Relation
import Patchbay.Graph.Plan

/-!
# The search behind a plan

The search keeps the way from the destination to the node it is at on its stack. Each node
that was entered is on the stack or has its step, and stands there once. The connections of
a node are read in order; each one read was kept, and then its source is done or further up
the stack, or cut, and then its source is further down. One advance follows one connection
or ends one visit, so the budget is enough for every list of connections.
-/
namespace Patchbay

/-- The output of a node feeds some inlet of another. -/
def Feeds (connections : List Connection) (source target : NodeKey) : Prop :=
  ∃ inlet, ⟨source, target, inlet⟩ ∈ connections

/-- The connection that a link into a node stands for. -/
def Link.into (link : Link) (target : NodeKey) : Connection :=
  ⟨link.source, target, link.inlet⟩

theorem mem_incoming {connections : List Connection} {key : NodeKey} {link : Link} :
    link ∈ incoming connections key ↔ link.into key ∈ connections := by
  simp only [incoming, Link.into, List.mem_map, List.mem_filter, beq_iff_eq]
  constructor
  · rintro ⟨c, ⟨mem, rfl⟩, rfl⟩
    exact mem
  · intro mem
    exact ⟨_, ⟨mem, rfl⟩, rfl⟩

theorem sum_map_indicator (keys : List NodeKey) (key : NodeKey) :
    (keys.map fun other => if other = key then 1 else 0).sum = keys.count key := by
  induction keys with
  | nil => rfl
  | cons other rest ih =>
    simp only [List.map_cons, List.sum_cons, ih, List.count_cons, beq_iff_eq]
    omega

/-- Different nodes have different connections into them. -/
theorem sum_length_incoming_le (connections : List Connection) {keys : List NodeKey}
    (once : keys.Nodup) :
    (keys.map fun key => (incoming connections key).length).sum ≤ connections.length := by
  induction connections with
  | nil => simp [incoming]
  | cons c rest ih =>
    have split (key : NodeKey) : (incoming (c :: rest) key).length =
        (if key = c.target then 1 else 0) + (incoming rest key).length := by
      by_cases h : c.target = key
      · simp [incoming, h, Nat.add_comm]
      · simp [incoming, h, Ne.symm h]
    have one := List.nodup_iff_count_le_one.mp once c.target
    simp only [split, List.sum_map_add, sum_map_indicator, List.length_cons]
    omega

namespace Search

/-- The nodes that were entered: those that have their step, then the way to them. -/
def entered (search : Search) : List NodeKey :=
  search.steps.map (·.key) ++ search.stack.map (·.key)

/-- A connection from one node to another was kept. -/
def Keeps (search : Search) (source target : NodeKey) : Prop :=
  (∃ step ∈ search.steps, step.key = target ∧ ∃ link ∈ step.inputs, link.source = source) ∨
    ∃ visit ∈ search.stack, visit.key = target ∧ ∃ link ∈ visit.kept, link.source = source

/-- What one advance does. -/
inductive Move (connections : List Connection) (search : Search) : Search → Prop
  | leave (visit : Visit) (below : List Visit) (top : search.stack = visit :: below)
      (none_left : visit.pending = []) :
      Move connections search { search with
        stack := below
        onPath := search.onPath.erase visit.key
        steps := search.steps ++ [⟨visit.key, visit.kept⟩] }
  | cut (visit : Visit) (below : List Visit) (link : Link) (rest : List Link)
      (top : search.stack = visit :: below) (next : visit.pending = link :: rest)
      (cyclic : link.source ∈ search.onPath) :
      Move connections search { search with
        stack := { visit with pending := rest } :: below
        cut := search.cut ++ [link.into visit.key] }
  | keep (visit : Visit) (below : List Visit) (link : Link) (rest : List Link)
      (top : search.stack = visit :: below) (next : visit.pending = link :: rest)
      (acyclic : link.source ∉ search.onPath) (known : link.source ∈ search.visited) :
      Move connections search { search with
        stack := { visit with pending := rest, kept := visit.kept ++ [link] } :: below }
  | enter (visit : Visit) (below : List Visit) (link : Link) (rest : List Link)
      (top : search.stack = visit :: below) (next : visit.pending = link :: rest)
      (unknown : link.source ∉ search.visited) :
      Move connections search { search with
        stack := Search.enter connections link.source ::
          { visit with pending := rest, kept := visit.kept ++ [link] } :: below
        visited := link.source :: search.visited
        onPath := link.source :: search.onPath }

theorem move_of_advance {connections : List Connection} {search next : Search}
    (h : search.advance connections = some next) : Move connections search next := by
  unfold advance at h
  split at h
  · cases h
  · rename_i visit below top
    split at h
    · rename_i none_left
      cases h
      exact .leave visit below top none_left
    · rename_i link rest pending
      split at h
      · rename_i cyclic
        cases h
        exact .cut visit below link rest top pending cyclic
      · rename_i acyclic
        dsimp only at h
        split at h
        · rename_i known
          cases h
          exact .keep visit below link rest top pending acyclic known
        · rename_i unknown
          cases h
          exact .enter visit below link rest top pending unknown

/-- The search goes on while the stack is not empty. -/
theorem advance_eq_none_iff {connections : List Connection} {search : Search} :
    search.advance connections = none ↔ search.stack = [] := by
  unfold advance
  constructor
  · intro h
    split at h
    · assumption
    · split at h
      · cases h
      · split at h
        · cases h
        · dsimp only at h
          split at h <;> cases h
  · intro h
    rw [h]

/-- Every kept connection comes from a node that is ready, or from one further up the
stack. -/
def Settled (ready : List NodeKey) : List Visit → Prop
  | [] => True
  | visit :: below =>
    (∀ link ∈ visit.kept, link.source ∈ ready) ∧ Settled (visit.key :: ready) below

theorem Settled.mono {ready more : List NodeKey} (sub : ready ⊆ more) {stack : List Visit}
    (h : Settled ready stack) : Settled more stack := by
  induction stack generalizing ready more with
  | nil => trivial
  | cons visit below ih =>
    exact ⟨fun link mem => sub (h.1 link mem), ih (List.cons_subset_cons _ sub) h.2⟩

/-- Each of the connections that were read into a node was kept, in order, or cut. -/
def Handled (cut : List Connection) (key : NodeKey) (read kept : List Link) : Prop :=
  kept.Sublist read ∧ ∀ link ∈ read, link ∈ kept ∨ link.into key ∈ cut

theorem Handled.mono {cut more : List Connection} (sub : cut ⊆ more) {key : NodeKey}
    {read kept : List Link} (h : Handled cut key read kept) : Handled more key read kept :=
  ⟨h.1, fun link mem => (h.2 link mem).imp_right fun m => sub m⟩

theorem Handled.keep {cut : List Connection} {key : NodeKey} {read kept : List Link}
    (h : Handled cut key read kept) (link : Link) :
    Handled cut key (read ++ [link]) (kept ++ [link]) := by
  refine ⟨h.1.append (List.Sublist.refl _), ?_⟩
  intro other mem
  rcases List.mem_append.mp mem with mem | mem
  · exact (h.2 other mem).imp_left (List.mem_append_left _)
  · exact .inl (List.mem_append_right _ mem)

theorem Handled.cut {cut : List Connection} {key : NodeKey} {read kept : List Link}
    (h : Handled cut key read kept) (link : Link) :
    Handled (cut ++ [link.into key]) key (read ++ [link]) kept := by
  refine ⟨h.1.trans (List.sublist_append_left _ _), ?_⟩
  intro other mem
  rcases List.mem_append.mp mem with mem | mem
  · exact (h.2 other mem).imp_right (List.mem_append_left _)
  · obtain rfl := List.mem_singleton.mp mem
    exact .inr (List.mem_append_right _ (List.mem_singleton_self _))

/-- What holds of the search at every moment. -/
structure Invariant (connections : List Connection) (destination : NodeKey)
    (search : Search) : Prop where
  path : search.onPath = search.stack.map (·.key)
  visited : ∀ key, key ∈ search.visited ↔ key ∈ search.entered
  once : search.entered.Nodup
  /-- The way began at the destination. -/
  ends : search.entered.getLast? = some destination
  leads : ∀ key ∈ search.entered, Relation.ReflTransGen (Feeds connections) key destination
  reading : ∀ visit ∈ search.stack, ∃ read, incoming connections visit.key = read ++ visit.pending ∧
    Handled search.cut visit.key read visit.kept
  read : ∀ step ∈ search.steps,
    Handled search.cut step.key (incoming connections step.key) step.inputs
  settled : Settled (search.steps.map (·.key)) search.stack
  ordered : ∀ before step after, search.steps = before ++ step :: after →
    ∀ link ∈ step.inputs, link.source ∈ before.map (·.key)
  chain : search.stack.IsChain fun above below => ∃ link ∈ below.kept, link.source = above.key
  closes : ∀ c ∈ search.cut, c ∈ connections ∧ c.source ∈ search.entered ∧
    c.target ∈ search.entered ∧ Relation.ReflTransGen search.Keeps c.target c.source

variable {connections : List Connection} {destination : NodeKey} {search next : Search}

theorem invariant_start (connections : List Connection) (destination : NodeKey) :
    Invariant connections destination (start connections destination) where
  path := rfl
  visited := by simp [start, entered, enter]
  once := by simp [start, entered, enter]
  ends := rfl
  leads := by
    intro key mem
    obtain rfl : key = destination := by simpa [start, entered, enter] using mem
    exact .refl
  reading := by
    intro visit mem
    obtain rfl : visit = enter connections destination := by simpa [start] using mem
    exact ⟨[], rfl, .refl _, by simp⟩
  read := by simp [start]
  settled := by simp [start, Settled, enter]
  ordered := by simp [start]
  chain := by simp [start]
  closes := by simp [start]

/-- A connection that was kept is not given up. -/
theorem Keeps.move (move : Move connections search next) {source target : NodeKey}
    (h : search.Keeps source target) : next.Keeps source target := by
  rcases h with ⟨step, mem, at_target, kept⟩ | ⟨visit, mem, at_target, link, kept, from_source⟩
  · left
    refine ⟨step, ?_, at_target, kept⟩
    cases move with
    | leave => exact List.mem_append_left _ mem
    | _ => exact mem
  · cases move with
    | leave top below stack =>
      rw [stack, List.mem_cons] at mem
      rcases mem with rfl | mem
      · exact .inl ⟨⟨visit.key, visit.kept⟩, by simp, at_target, link, kept, from_source⟩
      · exact .inr ⟨visit, mem, at_target, link, kept, from_source⟩
    | cut top below _ rest stack =>
      rw [stack, List.mem_cons] at mem
      rcases mem with rfl | mem
      · exact .inr ⟨{ visit with pending := rest }, by simp, at_target, link, kept, from_source⟩
      · exact .inr ⟨visit, by simp [mem], at_target, link, kept, from_source⟩
    | keep top below new rest stack =>
      rw [stack, List.mem_cons] at mem
      rcases mem with rfl | mem
      · exact .inr ⟨{ visit with pending := rest, kept := visit.kept ++ [new] }, by simp,
          at_target, link, by simp [kept], from_source⟩
      · exact .inr ⟨visit, by simp [mem], at_target, link, kept, from_source⟩
    | enter top below new rest stack =>
      rw [stack, List.mem_cons] at mem
      rcases mem with rfl | mem
      · exact .inr ⟨{ visit with pending := rest, kept := visit.kept ++ [new] }, by simp,
          at_target, link, by simp [kept], from_source⟩
      · exact .inr ⟨visit, by simp [mem], at_target, link, kept, from_source⟩

theorem Keeps.path (move : Move connections search next) {source target : NodeKey}
    (h : Relation.ReflTransGen search.Keeps source target) :
    Relation.ReflTransGen next.Keeps source target :=
  Relation.ReflTransGen.mono (fun _ _ kept => Keeps.move move kept) _ _ h

/-- From the top of the stack kept connections lead to every node below. -/
theorem reaches_of_chain {visit : Visit} {below : List Visit}
    (top : search.stack = visit :: below)
    (chain : search.stack.IsChain fun above below => ∃ link ∈ below.kept, link.source = above.key)
    {key : NodeKey} (mem : key ∈ search.stack.map (·.key)) :
    Relation.ReflTransGen search.Keeps visit.key key := by
  have walk : ∀ (first : Visit) (rest : List Visit), (first :: rest).IsChain
      (fun above below => ∃ link ∈ below.kept, link.source = above.key) →
      (∀ v ∈ first :: rest, v ∈ search.stack) → ∀ v ∈ first :: rest,
      Relation.ReflTransGen search.Keeps first.key v.key := by
    intro first rest
    induction rest generalizing first with
    | nil =>
      intro _ _ v hv
      obtain rfl := List.mem_singleton.mp hv
      exact .refl
    | cons second rest ih =>
      intro linked sub v hv
      rw [List.isChain_cons_cons] at linked
      obtain ⟨link, kept, from_first⟩ := linked.1
      have step : search.Keeps first.key second.key :=
        .inr ⟨second, sub second (by simp), rfl, link, kept, from_first⟩
      rcases List.mem_cons.mp hv with rfl | hv
      · exact .refl
      · exact .head step (ih second linked.2 (fun w hw => sub w (List.mem_cons_of_mem _ hw)) v hv)
  obtain ⟨v, hv, rfl⟩ := List.mem_map.mp mem
  rw [top] at hv chain
  exact walk visit below chain (fun w hw => top ▸ hw) v hv

/-- A connection that is still to be followed is one of the connections. -/
theorem Invariant.mem_of_pending (h : Invariant connections destination search)
    {visit : Visit} (on_stack : visit ∈ search.stack) {link : Link}
    (mem : link ∈ visit.pending) : link.into visit.key ∈ connections := by
  obtain ⟨read, split, _⟩ := h.reading visit on_stack
  rw [← mem_incoming, split]
  exact List.mem_append_right _ mem

/-- Reading one connection more keeps what is known of every visit. -/
theorem reading_next {cut more : List Connection} (sub : cut ⊆ more) {visit : Visit}
    {below : List Visit} {link : Link} {rest kept : List Link}
    (pending : visit.pending = link :: rest)
    (reading : ∀ v ∈ visit :: below, ∃ read, incoming connections v.key = read ++ v.pending ∧
      Handled cut v.key read v.kept)
    (handled : ∀ read, Handled cut visit.key read visit.kept →
      Handled more visit.key (read ++ [link]) kept) :
    ∀ v ∈ { visit with pending := rest, kept := kept } :: below,
      ∃ read, incoming connections v.key = read ++ v.pending ∧ Handled more v.key read v.kept := by
  intro v hv
  rcases List.mem_cons.mp hv with rfl | hv
  · obtain ⟨read, split, done⟩ := reading visit List.mem_cons_self
    exact ⟨read ++ [link], by simp [split, pending], handled read done⟩
  · obtain ⟨read, split, done⟩ := reading v (List.mem_cons_of_mem _ hv)
    exact ⟨read, split, done.mono sub⟩

theorem Invariant.leave (h : Invariant connections destination search) {visit : Visit}
    {below : List Visit} (top : search.stack = visit :: below) (none_left : visit.pending = []) :
    Invariant connections destination { search with
      stack := below
      onPath := search.onPath.erase visit.key
      steps := search.steps ++ [⟨visit.key, visit.kept⟩] } := by
  have same : Search.entered { search with
      stack := below
      onPath := search.onPath.erase visit.key
      steps := search.steps ++ [⟨visit.key, visit.kept⟩] } = search.entered := by
    simp [entered, top]
  have on_top : visit ∈ search.stack := by simp [top]
  have move : Move connections search _ := .leave visit below top none_left
  have settled := h.settled
  rw [top] at settled
  constructor
  case path => simp [h.path, top]
  case visited => rw [same]; exact h.visited
  case once => rw [same]; exact h.once
  case ends => rw [same]; exact h.ends
  case leads => rw [same]; exact h.leads
  case reading => exact fun v hv => h.reading v (by simp [top, hv])
  case read =>
    intro step mem
    rcases List.mem_append.mp mem with mem | mem
    · exact h.read step mem
    · obtain rfl := List.mem_singleton.mp mem
      obtain ⟨read, split, handled⟩ := h.reading visit on_top
      rw [none_left, List.append_nil] at split
      exact split ▸ handled
  case settled =>
    refine settled.2.mono ?_
    intro key mem
    simp only [List.map_append, List.map_cons, List.map_nil, List.mem_append, List.mem_cons,
      List.not_mem_nil, or_false] at mem ⊢
    exact mem.symm
  case ordered =>
    intro before step after split link mem
    rcases List.eq_nil_or_concat after with rfl | ⟨front, last, rfl⟩
    · obtain ⟨rfl, rfl⟩ : search.steps = before ∧ ⟨visit.key, visit.kept⟩ = step := by
        simpa using List.append_inj' split rfl
      exact settled.1 link mem
    · have split : search.steps = before ++ step :: front := by
        have := List.append_inj' (split.trans (by simp : _ = (before ++ step :: front) ++ [last])) rfl
        exact this.1
      exact h.ordered before step front split link mem
  case chain =>
    have chain := h.chain
    rw [top] at chain
    exact chain.tail
  case closes =>
    intro c mem
    obtain ⟨made, source, target, path⟩ := h.closes c mem
    rw [same]
    exact ⟨made, source, target, Keeps.path move path⟩

theorem Invariant.cut (h : Invariant connections destination search) {visit : Visit}
    {below : List Visit} {link : Link} {rest : List Link} (top : search.stack = visit :: below)
    (pending : visit.pending = link :: rest) (cyclic : link.source ∈ search.onPath) :
    Invariant connections destination { search with
      stack := { visit with pending := rest } :: below
      cut := search.cut ++ [link.into visit.key] } := by
  have same : Search.entered { search with
      stack := { visit with pending := rest } :: below
      cut := search.cut ++ [link.into visit.key] } = search.entered := by
    simp [entered, top]
  have on_top : visit ∈ search.stack := by simp [top]
  have on_stack : link.source ∈ search.stack.map (·.key) := h.path ▸ cyclic
  have sub : search.cut ⊆ search.cut ++ [link.into visit.key] := List.subset_append_left _ _
  have move : Move connections search _ := .cut visit below link rest top pending cyclic
  constructor
  case path => simpa [top] using h.path
  case visited => rw [same]; exact h.visited
  case once => rw [same]; exact h.once
  case ends => rw [same]; exact h.ends
  case leads => rw [same]; exact h.leads
  case reading =>
    exact reading_next sub pending (top ▸ h.reading) fun _ handled => handled.cut link
  case read => exact fun step mem => (h.read step mem).mono sub
  case settled => simpa [top, Settled] using h.settled
  case ordered => exact h.ordered
  case chain =>
    have chain := h.chain
    rw [top] at chain
    cases below with
    | nil => exact .singleton _
    | cons second rest => exact List.isChain_cons_cons.mpr (List.isChain_cons_cons.mp chain)
  case closes =>
    intro c mem
    rw [same]
    rcases List.mem_append.mp mem with mem | mem
    · obtain ⟨made, source, target, path⟩ := h.closes c mem
      exact ⟨made, source, target, Keeps.path move path⟩
    · obtain rfl := List.mem_singleton.mp mem
      refine ⟨h.mem_of_pending on_top (by simp [pending]), ?_, ?_, ?_⟩
      · exact List.mem_append_right _ on_stack
      · exact List.mem_append_right _ (List.mem_map_of_mem on_top)
      · exact Keeps.path move (reaches_of_chain top h.chain on_stack)

theorem Invariant.keep (h : Invariant connections destination search) {visit : Visit}
    {below : List Visit} {link : Link} {rest : List Link} (top : search.stack = visit :: below)
    (pending : visit.pending = link :: rest) (acyclic : link.source ∉ search.onPath)
    (known : link.source ∈ search.visited) :
    Invariant connections destination { search with
      stack := { visit with pending := rest, kept := visit.kept ++ [link] } :: below } := by
  have same : Search.entered { search with
      stack := { visit with pending := rest, kept := visit.kept ++ [link] } :: below } =
      search.entered := by
    simp [entered, top]
  have move : Move connections search _ := .keep visit below link rest top pending acyclic known
  have settled := h.settled
  rw [top] at settled
  -- a source that was visited and is not on the way has its step
  have ready : link.source ∈ search.steps.map (·.key) := by
    rcases List.mem_append.mp ((h.visited _).mp known) with ready | on_stack
    · exact ready
    · exact absurd (h.path ▸ on_stack) acyclic
  constructor
  case path => simpa [top] using h.path
  case visited => rw [same]; exact h.visited
  case once => rw [same]; exact h.once
  case ends => rw [same]; exact h.ends
  case leads => rw [same]; exact h.leads
  case reading =>
    exact reading_next (List.Subset.refl _) pending (top ▸ h.reading)
      fun _ handled => handled.keep link
  case read => exact h.read
  case settled =>
    refine ⟨?_, settled.2⟩
    intro other mem
    rcases List.mem_append.mp mem with mem | mem
    · exact settled.1 other mem
    · obtain rfl := List.mem_singleton.mp mem
      exact ready
  case ordered => exact h.ordered
  case chain =>
    have chain := h.chain
    rw [top] at chain
    cases below with
    | nil => exact .singleton _
    | cons second rest => exact List.isChain_cons_cons.mpr (List.isChain_cons_cons.mp chain)
  case closes =>
    intro c mem
    obtain ⟨made, source, target, path⟩ := h.closes c mem
    rw [same]
    exact ⟨made, source, target, Keeps.path move path⟩

theorem Invariant.enter (h : Invariant connections destination search) {visit : Visit}
    {below : List Visit} {link : Link} {rest : List Link} (top : search.stack = visit :: below)
    (pending : visit.pending = link :: rest) (unknown : link.source ∉ search.visited) :
    Invariant connections destination { search with
      stack := Search.enter connections link.source ::
        { visit with pending := rest, kept := visit.kept ++ [link] } :: below
      visited := link.source :: search.visited
      onPath := link.source :: search.onPath } := by
  have on_top : visit ∈ search.stack := by simp [top]
  have made : link.into visit.key ∈ connections := h.mem_of_pending on_top (by simp [pending])
  have move : Move connections search _ := .enter visit below link rest top pending unknown
  have fresh : link.source ∉ search.entered := fun mem => unknown ((h.visited _).mpr mem)
  have settled := h.settled
  rw [top] at settled
  have new_entered : Search.entered { search with
      stack := Search.enter connections link.source ::
        { visit with pending := rest, kept := visit.kept ++ [link] } :: below
      visited := link.source :: search.visited
      onPath := link.source :: search.onPath } =
      search.steps.map (·.key) ++ link.source :: search.stack.map (·.key) := by
    simp [entered, Search.enter, top]
  have mem_new (key : NodeKey) :
      key ∈ search.steps.map (·.key) ++ link.source :: search.stack.map (·.key) ↔
        key = link.source ∨ key ∈ search.entered := by
    simp only [entered, List.mem_append, List.mem_cons]
    exact or_left_comm
  constructor
  case path => simp [h.path, top, Search.enter]
  case visited =>
    intro key
    rw [new_entered, mem_new, List.mem_cons, h.visited]
  case once =>
    rw [new_entered]
    exact List.nodup_middle.mpr (List.nodup_cons.mpr ⟨fresh, h.once⟩)
  case ends =>
    have ends := h.ends
    rw [new_entered]
    simp only [entered, top, List.map_cons] at ends ⊢
    simpa [List.getLast?_append, List.getLast?_cons_cons] using ends
  case leads =>
    intro key mem
    rw [new_entered, mem_new] at mem
    rcases mem with rfl | mem
    · have visit_leads := h.leads visit.key (List.mem_append_right _ (List.mem_map_of_mem on_top))
      exact .head ⟨link.inlet, made⟩ visit_leads
    · exact h.leads key mem
  case reading =>
    intro v hv
    rcases List.mem_cons.mp hv with rfl | hv
    · exact ⟨[], rfl, .refl _, by simp⟩
    · exact reading_next (List.Subset.refl _) pending (top ▸ h.reading)
        (fun _ handled => handled.keep link) v hv
  case read => exact h.read
  case settled =>
    refine ⟨by simp [Search.enter], ?_, settled.2.mono ?_⟩
    · intro other mem
      rcases List.mem_append.mp mem with mem | mem
      · exact List.mem_cons_of_mem _ (settled.1 other mem)
      · obtain rfl := List.mem_singleton.mp mem
        exact List.mem_cons_self
    · exact List.cons_subset_cons _ (List.subset_cons_self _ _)
  case ordered => exact h.ordered
  case chain =>
    have chain := h.chain
    rw [top] at chain
    refine List.isChain_cons_cons.mpr ⟨⟨link, by simp, rfl⟩, ?_⟩
    cases below with
    | nil => exact .singleton _
    | cons second rest => exact List.isChain_cons_cons.mpr (List.isChain_cons_cons.mp chain)
  case closes =>
    intro c mem
    obtain ⟨from_made, source, target, path⟩ := h.closes c mem
    rw [new_entered, mem_new, mem_new]
    exact ⟨from_made, .inr source, .inr target, Keeps.path move path⟩

theorem Invariant.move (h : Invariant connections destination search)
    (move : Move connections search next) : Invariant connections destination next := by
  cases move with
  | leave visit below top none_left => exact h.leave top none_left
  | cut visit below link rest top pending cyclic => exact h.cut top pending cyclic
  | keep visit below link rest top pending acyclic known => exact h.keep top pending acyclic known
  | enter visit below link rest top pending unknown => exact h.enter top pending unknown

/-! ### The budget -/

/-- How many connections go into the nodes that were entered. -/
def owed (connections : List Connection) (search : Search) : Nat :=
  (search.entered.map fun key => (incoming connections key).length).sum

/-- How many of these are still to be followed. -/
def waiting (search : Search) : Nat :=
  (search.stack.map fun visit => visit.pending.length).sum

/-- How many advances were made: one for each connection followed and one for each node
left. -/
def spent (connections : List Connection) (search : Search) : Nat :=
  search.owed connections - search.waiting + search.steps.length

/-- What is still to be followed is part of what goes into the nodes on the stack, and
every node but the destination was entered over a connection. -/
structure Budgeted (connections : List Connection) (search : Search) : Prop where
  waiting_le : search.waiting ≤ search.owed connections
  entered_le : search.entered.length + search.waiting ≤ search.owed connections + 1

theorem budgeted_start (connections : List Connection) (destination : NodeKey) :
    Budgeted connections (start connections destination) := by
  constructor <;> simp [owed, waiting, entered, start, enter, Nat.add_comm]

/-- An advance is one more, and keeps within the budget. -/
theorem Budgeted.move (h : Budgeted connections search) (move : Move connections search next) :
    Budgeted connections next ∧ next.spent connections = search.spent connections + 1 := by
  obtain ⟨waiting_le, entered_le⟩ := h
  cases move with
  | leave visit below top none_left =>
    refine ⟨⟨?_, ?_⟩, ?_⟩ <;>
      simp only [owed, waiting, spent, entered, top, none_left, List.map_append, List.map_cons,
        List.map_nil, List.sum_append, List.sum_cons, List.sum_nil, List.length_append,
        List.length_map, List.length_cons, List.length_nil] at * <;>
      omega
  | cut visit below link rest top pending | keep visit below link rest top pending =>
    refine ⟨⟨?_, ?_⟩, ?_⟩ <;>
      simp only [owed, waiting, spent, entered, top, pending, List.map_append, List.map_cons,
        List.sum_append, List.sum_cons, List.length_append, List.length_map,
        List.length_cons] at * <;>
      omega
  | enter visit below link rest top pending =>
    refine ⟨⟨?_, ?_⟩, ?_⟩ <;>
      simp only [owed, waiting, spent, entered, Search.enter, top, pending, List.map_append,
        List.map_cons, List.sum_append, List.sum_cons, List.length_append, List.length_map,
        List.length_cons] at * <;>
      omega

theorem owed_le (once : search.entered.Nodup) : search.owed connections ≤ connections.length :=
  sum_length_incoming_le connections once

/-- Within the budget the search comes to its end, and the invariant holds there. -/
theorem run_spec (h : Invariant connections destination search)
    (budgeted : Budgeted connections search) {left : Nat}
    (enough : budget connections ≤ search.spent connections + left) :
    (run connections left search).stack = [] ∧
      Invariant connections destination (run connections left search) := by
  induction left generalizing search with
  | zero =>
    -- all is spent, so as many nodes were left as were entered
    refine ⟨?_, h⟩
    have all : search.owed connections ≤ connections.length := owed_le h.once
    obtain ⟨waiting_le, entered_le⟩ := budgeted
    have count : search.entered.length = search.steps.length + search.stack.length := by
      simp [entered]
    simp only [run, budget, spent] at enough ⊢
    exact List.length_eq_zero_iff.mp (by omega)
  | succ left ih =>
    rw [run]
    split
    · rename_i stopped
      exact ⟨advance_eq_none_iff.mp stopped, h⟩
    · rename_i next moved
      have move := move_of_advance moved
      obtain ⟨within, one_more⟩ := budgeted.move move
      exact ih (h.move move) within (by omega)

/-- The complete search has left every node that it entered. -/
theorem complete_spec (connections : List Connection) (destination : NodeKey) :
    (complete connections destination).stack = [] ∧
      Invariant connections destination (complete connections destination) :=
  run_spec (invariant_start connections destination) (budgeted_start connections destination)
    (Nat.le_add_left _ _)

end Search

end Patchbay
