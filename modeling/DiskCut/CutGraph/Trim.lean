import DiskCut.CutGraph
import DiskCut.Loop

/-!
# Trimming dangling edges

The candidates together with the feature edges and the open-boundary edges form a graph.  A vertex
with a single edge in it is a dangling end when that edge is a candidate off the features; a
singular vertex counts one edge more and never dangles.  Trimming removes the edge at a dangling
end and looks at the vertex across, until no dangling end is left.

* `Trimming`        degrees, removable edges at each vertex, what remains, and the vertices to look
                    at
* `startTrimming`   the graph before any removal
* `Trimming.swapRemove`   how an edge is taken off the list of the vertex across
* `Trimming.step`   one vertex looked at
* `trimCutGraph`    what remains of the candidates

Feature edges and boundary edges anchor the branches that end at them and are never removed;
boundary edges that are no candidates are not in the result.
-/

namespace DiskCut
open Std

/-- a graph while it is trimmed -/
structure Trimming where
  /-- the number of edges at each vertex, one more at a singular vertex -/
  degree : Array Nat
  /-- the removable edges at each vertex, with the vertex across -/
  branches : Array (List (VertexId × EdgeId))
  /-- the candidates not removed -/
  remaining : ExtTreeSet EdgeId
  removed : Nat
  /-- vertices that may be dangling ends -/
  stack : List VertexId

namespace Trimming

/-- vertex `v` has one edge, and it is removable -/
def isDangling (s : Trimming) (v : VertexId) : Except Fault Bool := do
  if (← fetch s.degree v) = 1 then return !(← fetch s.branches v).isEmpty
  else return false

/-- the number at place `v` less one -/
def lower (degree : Array Nat) (v : VertexId) : Except Fault (Array Nat) := do
  let rest ← less (← fetch degree v) 1
  alter degree v fun _ => rest

/-- the list without the first member that passes the test, whose place the last member takes -/
def swapRemove {β : Type} (p : β → Bool) : List β → List β
  | [] => []
  | x :: xs =>
    if p x then
      match xs.getLast? with
      | none => []
      | some last => last :: xs.dropLast
    else x :: swapRemove p xs

/-- one vertex looked at: if it still dangles, its edge is removed at both ends -/
def step (s : Trimming) : Except Fault (Option Trimming) :=
  match s.stack with
  | [] => .ok none
  | leaf :: stack => do
    if !(← s.isDangling leaf) then return some { s with stack }
    else match (← fetch s.branches leaf).getLast? with
      | none => return some { s with stack }
      | some (across, e) => do
        let branches ← alter s.branches leaf (·.dropLast)
        let degree ← lower s.degree leaf
        let degree ← lower degree across
        let branches ← alter branches across (swapRemove (·.2 == e))
        let pruned : Trimming :=
          ⟨degree, branches, s.remaining.erase e, s.removed + 1, stack⟩
        if ← pruned.isDangling across then return some { pruned with stack := across :: stack }
        else return some pruned

end Trimming

namespace Mesh
variable {α : Type}

/-- edge `e` of the graph entered at both ends -/
def addBranch (m : Mesh α) (candidates : ExtTreeSet EdgeId) (s : Trimming) (e : EdgeId) :
    Except Fault Trimming := do
  let edge ← m.edge e
  let degree ← alter s.degree edge.ends.1 (· + 1)
  let degree ← alter degree edge.ends.2 (· + 1)
  if candidates.contains e && !edge.isFeature then
    let branches ← alter s.branches edge.ends.1 (· ++ [(edge.ends.2, e)])
    let branches ← alter branches edge.ends.2 (· ++ [(edge.ends.1, e)])
    return { s with degree, branches }
  else return { s with degree }

/-- the edges that a branch can hang on to: candidates, feature edges and boundary edges -/
def graphEdges (m : Mesh α) (candidates : ExtTreeSet EdgeId) :
    Except Fault (ExtTreeSet EdgeId) := do
  let boundary ← (List.range m.edges.size).filterM m.isBoundaryEdge
  return (candidates.insertMany m.featureEdges.toList).insertMany boundary

/-- the graph before any removal; the lowest dangling end is looked at first -/
def startTrimming (m : Mesh α) (candidates : ExtTreeSet EdgeId) : Except Fault Trimming := do
  let count := m.vertices.size
  let edges ← m.graphEdges candidates
  let entered ← edges.toList.foldlM (m.addBranch candidates)
    { degree := (List.replicate count 0).toArray
      branches := (List.replicate count []).toArray
      remaining := candidates
      removed := 0
      stack := [] }
  let degree ← m.singularities.keys.foldlM (fun degree v => alter degree v (· + 1)) entered.degree
  let start := { entered with degree }
  return { start with stack := ← (List.range count).filterM start.isDangling }

/-- what remains of the candidates when no dangling end is left.  Each removal puts one vertex on
the stack at most, so the stack is empty after as many steps as there are vertices and
candidates. -/
def trimCutGraph (m : Mesh α) (candidates : ExtTreeSet EdgeId) : Except Fault CutGraph := do
  let start ← m.startTrimming candidates
  let trimmed ← repeatWhile Trimming.step (m.vertices.size + candidates.size + 1) start
  return ⟨trimmed.remaining, trimmed.removed⟩

end Mesh
end DiskCut
