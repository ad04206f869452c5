import Patchbay.Wiring

/-!
# Render plans

A plan lists the nodes from which the destination can be reached, each after the nodes that
feed it. It comes from a depth-first search against the direction of the signal. A
connection whose source is on the way from the destination to its target would close a
cycle and is left out.
-/
namespace Patchbay

/-- Where a planned node takes a signal from, and to which inlet it goes. -/
structure Link where
  source : NodeKey
  inlet : Inlet
  deriving Repr, DecidableEq

/-- A node of a plan with the connections into it that are kept. -/
structure Step where
  key : NodeKey
  inputs : List Link
  deriving Repr, DecidableEq

/-- The nodes to render, in order. -/
structure Plan where
  steps : List Step
  deriving Repr, DecidableEq

/-- The connections into a node, in the order in which they were made. -/
def incoming (connections : List Connection) (key : NodeKey) : List Link :=
  (connections.filter fun c => c.target == key).map fun c => ⟨c.source, c.inlet⟩

/-- A node that is being searched: the connections still to follow and those kept so far. -/
structure Visit where
  key : NodeKey
  pending : List Link
  kept : List Link
  deriving Repr, DecidableEq

/-- The state of the search. The first visit of the stack is the latest. -/
structure Search where
  stack : List Visit
  visited : List NodeKey
  onPath : List NodeKey
  steps : List Step
  cut : List Connection
  deriving Repr, DecidableEq

namespace Search

/-- Begin a visit of a node. -/
def enter (connections : List Connection) (key : NodeKey) : Visit :=
  ⟨key, incoming connections key, []⟩

/-- The search before it leaves the destination. -/
def start (connections : List Connection) (destination : NodeKey) : Search where
  stack := [enter connections destination]
  visited := [destination]
  onPath := [destination]
  steps := []
  cut := []

/-- Follow the next connection of the latest visit, or end the visit when none is left. -/
def advance (connections : List Connection) (search : Search) : Option Search :=
  match search.stack with
  | [] => none
  | visit :: below =>
    match visit.pending with
    | [] =>
      some { search with
        stack := below
        onPath := search.onPath.erase visit.key
        steps := search.steps ++ [⟨visit.key, visit.kept⟩] }
    | link :: rest =>
      if link.source ∈ search.onPath then
        some { search with
          stack := { visit with pending := rest } :: below
          cut := search.cut ++ [⟨link.source, visit.key, link.inlet⟩] }
      else
        let followed := { visit with pending := rest, kept := visit.kept ++ [link] }
        if link.source ∈ search.visited then
          some { search with stack := followed :: below }
        else
          some { search with
            stack := enter connections link.source :: followed :: below
            visited := link.source :: search.visited
            onPath := link.source :: search.onPath }

/-- Advance until the stack is empty, within a budget. -/
def run (connections : List Connection) : Nat → Search → Search
  | 0, search => search
  | budget + 1, search =>
    match search.advance connections with
    | none => search
    | some next => run connections budget next

/-- One advance for every connection that is followed and one for every node that is left:
besides the destination each node that is left is the source of a connection. -/
def budget (connections : List Connection) : Nat :=
  2 * connections.length + 1

/-- The search when it has come to its end. -/
def complete (connections : List Connection) (destination : NodeKey) : Search :=
  run connections (budget connections) (start connections destination)

end Search

/-- The plan for rendering a destination. -/
def Plan.ofConnections (connections : List Connection) (destination : NodeKey) : Plan :=
  ⟨(Search.complete connections destination).steps⟩

end Patchbay
