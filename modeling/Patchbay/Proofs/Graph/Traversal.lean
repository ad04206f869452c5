import Mathlib.Data.List.Perm.Basic
import Mathlib.Data.Nat.Find
import Patchbay.Proofs.Graph.Planning

/-!
# The turns of the search

Each turn of the search follows one connection or leaves one node. A node comes onto the stack
once, and with it the connections into it fall due. So there are as many turns as there are nodes
that lead to the destination and connections into these nodes, whatever cycles they have.
-/
namespace Patchbay

theorem map_into_incoming (connections : List Connection) (key : NodeKey) :
    (incoming connections key).map (·.into key) = connections.filter (·.target == key) := by
  rw [incoming, List.map_map]
  refine (List.map_congr_left fun c mem => ?_).trans (List.map_id _)
  have target : c.target = key := by simpa using (List.mem_filter.mp mem).2
  rw [← target]
  rfl

theorem count_into_incoming (connections : List Connection) (key : NodeKey) (c : Connection) :
    ((incoming connections key).map (·.into key)).count c =
      if c.target = key then connections.count c else 0 := by
  rw [map_into_incoming]
  split
  · rename_i here
    exact List.count_filter (by simpa using here)
  · rename_i elsewhere
    exact List.count_eq_zero.mpr fun mem => elsewhere (by simpa using (List.mem_filter.mp mem).2)

namespace Search

variable {connections : List Connection} {destination : NodeKey} {search next : Search}

/-! ### One turn -/

/-- The nodes on the stack. -/
def way (search : Search) : List NodeKey :=
  search.stack.map (·.key)

/-- The nodes that come onto the stack from one moment to another. -/
def pushed (before after : Search) : List NodeKey :=
  after.way.filter (· ∉ before.way)

/-- The nodes that go from the stack. -/
def popped (before after : Search) : List NodeKey :=
  before.way.filter (· ∉ after.way)

/-- The connection that the next turn follows: the first one that the latest visit did not read. -/
def follows (search : Search) : List Connection :=
  match search.stack with
  | [] => []
  | visit :: _ => (visit.pending.take 1).map (·.into visit.key)

/-- The connections that are still to be followed into the nodes on the stack. -/
def due (search : Search) : List Connection :=
  search.stack.flatMap fun visit => visit.pending.map (·.into visit.key)

theorem filter_notMem_self (keys : List NodeKey) : keys.filter (· ∉ keys) = [] :=
  List.filter_eq_nil_iff.mpr fun key mem => by simp [mem]

/-- A move as the stack shows it. -/
inductive Turn (connections : List Connection) (before after : Search) : Prop
  | leave (key : NodeKey) (way : before.way = key :: after.way)
      (steps : after.steps.map (·.key) = before.steps.map (·.key) ++ [key])
      (follows : before.follows = []) (due : after.due = before.due)
  | stay (c : Connection) (way : after.way = before.way)
      (steps : after.steps = before.steps)
      (follows : before.follows = [c]) (due : before.due = c :: after.due)
  | enter (c : Connection) (new : c.source ∉ before.visited)
      (way : after.way = c.source :: before.way)
      (steps : after.steps = before.steps) (follows : before.follows = [c])
      (rest : List Connection) (due : before.due = c :: rest)
      (owed : after.due = (incoming connections c.source).map (·.into c.source) ++ rest)

theorem turn_of_move (move : Move connections search next) : Turn connections search next := by
  cases move with
  | leave visit below top none_left =>
    refine .leave visit.key ?_ ?_ ?_ ?_
    · simp [way, top]
    · simp
    · simp [follows, top, none_left]
    · simp [due, top, none_left]
  | cut visit below link rest top pending | keep visit below link rest top pending =>
    refine .stay (link.into visit.key) ?_ rfl ?_ ?_
    · simp [way, top]
    · simp [follows, top, pending]
    · simp [due, top, pending]
  | enter visit below link rest top pending unknown =>
    refine .enter (link.into visit.key) unknown ?_ rfl ?_
      (rest.map (·.into visit.key) ++ below.flatMap fun visit =>
        visit.pending.map (·.into visit.key)) ?_ ?_
    · simp [way, top, enter, Link.into]
    · simp [follows, top, pending]
    · simp [due, top, pending]
    · simp [due, enter, Link.into]

/-! ### What the turns come to -/

/-- What was pushed, popped and followed up to a moment of the search. -/
structure Tally (connections : List Connection) (destination : NodeKey)
    (pushes pops : List NodeKey) (followed : List Connection) (search : Search) : Prop where
  inv : Invariant connections destination search
  pushes : pushes.Perm search.entered
  pops : pops = search.steps.map (·.key)
  /-- All connections into the nodes that were entered were followed or are due. -/
  followed : ∀ c, followed.count c + search.due.count c =
    if c.target ∈ search.entered then connections.count c else 0

theorem tally_start (connections : List Connection) (destination : NodeKey) :
    Tally connections destination [destination] [] [] (start connections destination) where
  inv := invariant_start connections destination
  pushes := .refl _
  pops := rfl
  followed := by
    intro c
    simpa [due, start, enter, entered] using count_into_incoming connections destination c

variable {pushes pops : List NodeKey} {followed : List Connection}

/-- A turn leaves a node or follows a connection, which may lead to a new node. -/
theorem Tally.move (tally : Tally connections destination pushes pops followed search)
    (move : Move connections search next) :
    Tally connections destination (pushes ++ pushed search next) (pops ++ popped search next)
        (followed ++ search.follows) next ∧
      (popped search next).length + search.follows.length = 1 := by
  have inv := tally.inv.move move
  have once : (search.steps.map (·.key) ++ search.way).Nodup := tally.inv.once
  have entered_eq (search : Search) : search.entered = search.steps.map (·.key) ++ search.way := rfl
  cases turn_of_move move with
  | leave key way steps follows due =>
    have alone : key ∉ next.way := by
      rw [way] at once
      exact (List.nodup_cons.mp (List.nodup_append.mp once).2.1).1
    have pushed_eq : pushed search next = [] := by
      refine List.filter_eq_nil_iff.mpr fun other mem => ?_
      simp [way, mem]
    have popped_eq : popped search next = [key] := by
      rw [popped, way, List.filter_cons_of_pos (by simpa using alone), filter_notMem_self]
    have same : next.entered = search.entered := by
      rw [entered_eq, entered_eq, steps, way, List.append_assoc, List.singleton_append]
    rw [pushed_eq, popped_eq, follows, List.append_nil, List.append_nil]
    refine ⟨⟨inv, ?_, ?_, ?_⟩, rfl⟩
    · rw [same]
      exact tally.pushes
    · rw [steps, tally.pops]
    · rw [same, due]
      exact tally.followed
  | stay c way steps follows due =>
    have pushed_eq : pushed search next = [] := by rw [pushed, way, filter_notMem_self]
    have popped_eq : popped search next = [] := by rw [popped, way, filter_notMem_self]
    have same : next.entered = search.entered := by
      rw [entered_eq, entered_eq, steps, way]
    rw [pushed_eq, popped_eq, follows, List.append_nil, List.append_nil]
    refine ⟨⟨inv, ?_, ?_, fun d => ?_⟩, rfl⟩
    · rw [same]
      exact tally.pushes
    · rw [steps, tally.pops]
    · have counted := tally.followed d
      rw [due, List.count_cons] at counted
      rw [same, List.count_append, List.count_singleton, ← counted]
      omega
  | enter c new way steps follows rest due owed =>
    have fresh : c.source ∉ search.entered := fun mem => new ((tally.inv.visited _).mpr mem)
    have off : c.source ∉ search.way := fun mem => fresh (List.mem_append_right _ mem)
    have pushed_eq : pushed search next = [c.source] := by
      rw [pushed, way, List.filter_cons_of_pos (by simpa using off), filter_notMem_self]
    have popped_eq : popped search next = [] := by
      refine List.filter_eq_nil_iff.mpr fun other mem => ?_
      simp [way, mem]
    have grown : next.entered.Perm (c.source :: search.entered) := by
      rw [entered_eq, entered_eq, steps, way]
      exact List.perm_middle
    rw [pushed_eq, popped_eq, follows, List.append_nil]
    refine ⟨⟨inv, ?_, ?_, fun d => ?_⟩, rfl⟩
    · exact (List.perm_append_comm.trans (tally.pushes.cons _)).trans grown.symm
    · rw [steps, tally.pops]
    · have counted := tally.followed d
      rw [due, List.count_cons] at counted
      rw [List.count_append, List.count_singleton, owed, List.count_append, count_into_incoming]
      simp only [grown.mem_iff, List.mem_cons]
      by_cases here : d.target = c.source
      · rw [here, if_neg fresh] at counted
        simp only [here, true_or, if_true]
        omega
      · simp only [here, false_or, if_false]
        omega

theorem entered_of_ended (empty : search.stack = []) :
    search.entered = search.steps.map (·.key) := by
  simp [entered, empty]

/-- At the end, just the connections into the nodes that were entered have been followed. -/
theorem Tally.followed_of_ended
    (tally : Tally connections destination pushes pops followed search)
    (empty : search.stack = []) :
    followed.Perm (connections.filter (·.target ∈ search.steps.map (·.key))) := by
  refine List.perm_iff_count.mpr fun c => ?_
  have counted := tally.followed c
  rw [entered_of_ended empty, due, empty, List.flatMap_nil, List.count_nil,
    Nat.add_zero] at counted
  rw [counted]
  split
  · rename_i mem
    exact (List.count_filter (by simpa using mem)).symm
  · rename_i apart
    refine (List.count_eq_zero.mpr fun mem => apart ?_).symm
    simpa using (List.mem_filter.mp mem).2

/-! ### All turns -/

theorem run_succ (connections : List Connection) (count : Nat) (search : Search) :
    run connections (count + 1) search =
      ((run connections count search).advance connections).getD (run connections count search) := by
  induction count generalizing search with
  | zero =>
    rw [run, run]
    cases search.advance connections <;> rfl
  | succ count ih =>
    rw [run]
    cases advanced : search.advance connections with
    | none =>
      have ended : run connections (count + 1) search = search := by rw [run, advanced]
      simp only [ended, advanced, Option.getD_none]
    | some next =>
      have onward : run connections (count + 1) search = run connections count next := by
        rw [run, advanced]
      simp only [onward]
      exact ih next

variable (connections destination)

/-- The search after a number of turns of its loop. At its end it stays as it is. -/
def after (count : Nat) : Search :=
  run connections count (start connections destination)

/-- What was pushed in the first turns. The destination was there before them. -/
def pushedIn (count : Nat) : List NodeKey :=
  destination :: (List.range count).flatMap fun i =>
    pushed (after connections destination i) (after connections destination (i + 1))

/-- What was popped in the first turns. -/
def poppedIn (count : Nat) : List NodeKey :=
  (List.range count).flatMap fun i =>
    popped (after connections destination i) (after connections destination (i + 1))

/-- The connections that were followed in the first turns. -/
def followedIn (count : Nat) : List Connection :=
  (List.range count).flatMap fun i => (after connections destination i).follows

variable {connections destination}

theorem flatMap_range_succ {α : Type} (f : Nat → List α) (count : Nat) :
    (List.range (count + 1)).flatMap f = (List.range count).flatMap f ++ f count := by
  rw [List.range_succ, List.flatMap_append, List.flatMap_singleton]

theorem pushedIn_succ (count : Nat) : pushedIn connections destination (count + 1) =
    pushedIn connections destination count ++
      pushed (after connections destination count) (after connections destination (count + 1)) := by
  rw [pushedIn, flatMap_range_succ]
  rfl

theorem poppedIn_succ (count : Nat) : poppedIn connections destination (count + 1) =
    poppedIn connections destination count ++
      popped (after connections destination count) (after connections destination (count + 1)) :=
  flatMap_range_succ _ count

theorem followedIn_succ (count : Nat) : followedIn connections destination (count + 1) =
    followedIn connections destination count ++ (after connections destination count).follows :=
  flatMap_range_succ _ count

theorem after_succ (count : Nat) : after connections destination (count + 1) =
    ((after connections destination count).advance connections).getD
      (after connections destination count) :=
  run_succ ..

theorem after_of_ended {count : Nat} (ended : (after connections destination count).stack = [])
    (more : Nat) : after connections destination (count + more) =
      after connections destination count := by
  induction more with
  | zero => rfl
  | succ more ih => rw [← Nat.add_assoc, after_succ, ih, advance_eq_none_iff.mpr ended,
      Option.getD_none]

/-- What the turns up to any moment come to. As long as the search goes on, each counts. -/
theorem tally_after (connections : List Connection) (destination : NodeKey) (count : Nat) :
    Tally connections destination (pushedIn connections destination count)
        (poppedIn connections destination count) (followedIn connections destination count)
        (after connections destination count) ∧
      ((∀ i < count, (after connections destination i).stack ≠ []) →
        (poppedIn connections destination count).length +
          (followedIn connections destination count).length = count) := by
  induction count with
  | zero => exact ⟨tally_start connections destination, fun _ => rfl⟩
  | succ count ih =>
    obtain ⟨tally, counts⟩ := ih
    rw [pushedIn_succ, poppedIn_succ, followedIn_succ, after_succ]
    cases advanced : (after connections destination count).advance connections with
    | none =>
      have ended := advance_eq_none_iff.mp advanced
      have follows_none : (after connections destination count).follows = [] := by
        rw [follows, ended]
      rw [Option.getD_none, pushed, popped, filter_notMem_self, follows_none]
      simp only [List.append_nil]
      exact ⟨tally, fun goes_on => absurd ended (goes_on count (Nat.lt_succ_self count))⟩
    | some next =>
      rw [Option.getD_some, List.length_append, List.length_append]
      obtain ⟨tally', one⟩ := tally.move (move_of_advance advanced)
      refine ⟨tally', fun goes_on => ?_⟩
      have before := counts fun i lt => goes_on i (Nat.lt_succ_of_lt lt)
      omega

/-- The search ends, and it ends after as many turns as nodes lead to the destination and
connections go into these. Each of these nodes is pushed once and popped once, and each of these
connections is followed once. All the while the path holds the nodes on the stack, and every node
that was visited is either on the stack or has its step. -/
theorem ends_in_turns (connections : List Connection) (destination : NodeKey) :
    ∃ reached : List NodeKey, reached.Nodup ∧
      (∀ key, key ∈ reached ↔ Relation.ReflTransGen (Feeds connections) key destination) ∧
      let inward := connections.filter (·.target ∈ reached)
      let turns := reached.length + inward.length
      (∀ i < turns, (after connections destination i).stack ≠ []) ∧
      (after connections destination turns).stack = [] ∧
      complete connections destination = after connections destination turns ∧
      (pushedIn connections destination turns).Perm reached ∧
      (poppedIn connections destination turns).Perm reached ∧
      (followedIn connections destination turns).Perm inward ∧
      ∀ i, let search := after connections destination i
        search.onPath = search.way ∧
        (∀ key, key ∈ search.visited ↔ key ∈ search.way ∨ key ∈ search.steps.map (·.key)) ∧
        (search.steps.map (·.key) ++ search.way).Nodup := by
  have ends : ∃ count, (after connections destination count).stack = [] :=
    ⟨budget connections, (complete_spec connections destination).1⟩
  -- the first moment at which the stack is empty
  obtain ⟨count, empty, before⟩ : ∃ count, (after connections destination count).stack = [] ∧
      ∀ i < count, (after connections destination i).stack ≠ [] :=
    ⟨Nat.find ends, Nat.find_spec ends, fun i lt => Nat.find_min ends lt⟩
  obtain ⟨tally, counts⟩ := tally_after connections destination count
  set last := after connections destination count
  have entered_eq : last.entered = last.steps.map (·.key) := entered_of_ended empty
  have followed := tally.followed_of_ended empty
  set reached := last.steps.map (·.key)
  have turns : reached.length + (connections.filter (·.target ∈ reached)).length = count := by
    have both := counts before
    rw [tally.pops, followed.length_eq] at both
    exact both
  refine ⟨reached, entered_eq ▸ tally.inv.once, tally.inv.mem_keys_iff empty, ?_⟩
  simp only [turns]
  refine ⟨before, empty, ?_, ?_, ?_, followed, fun i => ?_⟩
  · have within : count ≤ budget connections :=
      Nat.le_of_not_lt fun lt => before _ lt (complete_spec connections destination).1
    obtain ⟨more, same⟩ := Nat.exists_eq_add_of_le within
    rw [complete, same]
    exact after_of_ended empty more
  · exact entered_eq ▸ tally.pushes
  · rw [tally.pops]
  · have inv := (tally_after connections destination i).1.inv
    refine ⟨inv.path, fun key => ?_, inv.once⟩
    rw [inv.visited, entered, List.mem_append, or_comm]
    rfl

end Search
end Patchbay
