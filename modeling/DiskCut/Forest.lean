import DiskCut.Distance.Field
import DiskCut.Loop
import DiskCut.Queue

/-!
# Spanning forests of the dual graph

Two triangles are neighbours when they share an edge that is no feature.  The forest grows best
first, by the mean distance of the triangles; the edges that it does not cross are the candidates
for the cut graph.

* `Rank`            where a mean stands among all means, also one that is not a number
* `GrowthOrder`     far triangles first or near ones first
* `Growth`          the forest while it grows, with the triangles seen but not yet left
* `spanningForest`  one tree for each connected part, grown from its lowest triangle

Every edge through which a new triangle is reached stops being a candidate.  Candidates are at
first the feature edges and the edges with two triangles.
-/

namespace DiskCut
open Std
variable {α : Type} [Scalar α] [Extended α]

/-! ## ranks -/

/-- where a mean stands: a mean that is not a number stands before or after all others -/
inductive Rank (α : Type) where
  | lowest
  | value (mean : α)
  | highest

namespace Rank

/-- the order of ranks -/
def order : Rank α → Rank α → Ordering
  | lowest, lowest => .eq
  | lowest, _ => .lt
  | value _, lowest => .gt
  | value x, value y => Extended.totalOrder x y
  | value _, highest => .lt
  | highest, highest => .eq
  | highest, _ => .gt

instance order_trans : TransCmp (order : Rank α → Rank α → Ordering) where
  eq_swap {a b} := by
    cases a <;> cases b <;> simp [order]
    exact OrientedCmp.eq_swap
  isLE_trans {a b c} := by
    cases a <;> cases b <;> cases c <;> simp [order]
    exact TransCmp.isLE_trans

instance order_eq : LawfulEqCmp (order : Rank α → Rank α → Ordering) where
  eq_of_compare {a b} := by
    cases a <;> cases b <;> simp [order]

/-- the value `x` is neither finite nor infinite -/
def isUndefined (x : α) : Bool := !Extended.isFinite x && !Extended.isInfinite x

/-- the rank of the mean of three distances.  A mean that is not a number ranks highest when an
undefined distance made it so, and lowest when opposite infinities met first.  Neither happens with
distances that a search finds, none of which is undefined or below zero. -/
def ofMean (d₀ d₁ d₂ : α) : Rank α :=
  let mean := ((d₀ + d₁) + d₂) / 3.0
  if !isUndefined mean then value mean
  else if isUndefined d₀ || isUndefined d₁ then highest
  else if isUndefined (d₀ + d₁) then lowest
  else if isUndefined d₂ then highest
  else lowest

/-- the ranks turned upside down -/
def opposite : Rank α → Rank α
  | lowest => highest
  | value mean => value (-mean)
  | highest => lowest

end Rank

/-- which triangles leave the frontier first -/
inductive GrowthOrder where
  /-- the largest mean distance, so that constraints are reached last -/
  | farthestFirst
  | nearestFirst
deriving DecidableEq, Repr

instance : Inhabited GrowthOrder := ⟨.farthestFirst⟩

/-- the key of a triangle: higher keys leave first -/
def GrowthOrder.key (order : GrowthOrder) (rank : Rank α) : Rank α :=
  match order with
  | .farthestFirst => rank
  | .nearestFirst => rank.opposite

/-- a triangle at the frontier, with its key -/
structure Frontier (α : Type) where
  key : Rank α
  triangle : TriangleId

/-- higher keys first, of equal ones the lower triangle -/
def Frontier.order : Frontier α → Frontier α → Ordering :=
  compareLex (fun a b => Rank.order b.key a.key) (compareOn Frontier.triangle)

instance Frontier.order_trans : TransCmp (order : Frontier α → Frontier α → Ordering) :=
  let _ : TransCmp fun a b : Frontier α => Rank.order b.key a.key :=
    { eq_swap := OrientedCmp.eq_swap
      isLE_trans := fun h k => TransCmp.isLE_trans k h }
  inferInstanceAs (TransCmp
    (compareLex (fun a b : Frontier α => Rank.order b.key a.key) (compareOn Frontier.triangle)))

instance Frontier.order_eq : LawfulEqCmp (order : Frontier α → Frontier α → Ordering) where
  eq_of_compare {a b} h := by
    simp only [Frontier.order, compareLex_eq_eq, compareOn, Nat.compare_eq_eq] at h
    obtain ⟨j, t⟩ := a
    obtain ⟨k, u⟩ := b
    obtain rfl : k = j := LawfulEqCmp.eq_of_compare h.1
    obtain rfl : t = u := h.2
    rfl

/-! ## growing -/

/-- a spanning forest: the edge through which each triangle was reached, none for a root, and the
edges that no tree crosses -/
structure SpanningForest where
  candidates : ExtTreeSet EdgeId
  parentEdge : Array (Option EdgeId)
  roots : List TriangleId

namespace SpanningForest

/-- the number of trees -/
def numComponents (f : SpanningForest) : Nat := f.roots.length

/-- the number of triangles that were reached through an edge -/
def numConnections (f : SpanningForest) : Nat := f.parentEdge.toList.countP Option.isSome

/-- the number of triangles reached, as a root or through an edge -/
def numVisited (f : SpanningForest) : Nat := f.numComponents + f.numConnections

end SpanningForest

/-- a forest while it grows -/
structure Growth (α : Type) [Scalar α] [Extended α] where
  visited : Array Bool
  parentEdge : Array (Option EdgeId)
  candidates : ExtTreeSet EdgeId
  roots : List TriangleId
  frontier : Queue (Frontier α) Frontier.order

namespace Growth

/-- triangle `t` put on the frontier -/
def enter (keys : Array (Rank α)) (s : Growth α) (t : TriangleId) : Except Fault (Growth α) := do
  let key ← fetch keys t
  return { s with frontier := s.frontier.insert ⟨key, t⟩ }

/-- triangle `t` reached through edge `e`, unless it was visited before -/
def reach (keys : Array (Rank α)) (e : EdgeId) (s : Growth α) (t : TriangleId) :
    Except Fault (Growth α) := do
  if ← fetch s.visited t then return s
  else
    let visited ← alter s.visited t fun _ => true
    let parentEdge ← alter s.parentEdge t fun _ => some e
    enter keys { s with visited, parentEdge, candidates := s.candidates.erase e } t

/-- the growth goes on across edge `e`, if that is no feature edge -/
def cross (m : Mesh α) (keys : Array (Rank α)) (s : Growth α) (e : EdgeId) :
    Except Fault (Growth α) := do
  if ← m.isFeatureEdge e then return s
  else (← m.trianglesAt e).foldlM (reach keys e) s

/-- the first triangle of the frontier left across its three sides -/
def step (m : Mesh α) (keys : Array (Rank α)) (s : Growth α) : Except Fault (Option (Growth α)) :=
  match Queue.pop? s.frontier with
  | none => .ok none
  | some (first, rest) => do
    let sides ← m.sidesOf first.triangle
    let grown ← sides.toList.foldlM (cross m keys) { s with frontier := rest }
    return some grown

/-- a tree grown from `root`, unless that was visited before -/
def plant (m : Mesh α) (keys : Array (Rank α)) (s : Growth α) (root : TriangleId) :
    Except Fault (Growth α) := do
  if ← fetch s.visited root then return s
  else
    let visited ← alter s.visited root fun _ => true
    let planted ← enter keys { s with visited, roots := s.roots ++ [root] } root
    repeatWhile (step m keys) (m.triangles.size + 1) planted

end Growth

/-! ## forests -/

namespace Mesh

/-- the key of a triangle under a field and an order -/
def growthKey (m : Mesh α) (field : DistanceField α) (order : GrowthOrder) (t : TriangleId) :
    Except Fault (Rank α) := do
  let vs ← m.triangle t
  let d₀ ← field.distance vs.a
  let d₁ ← field.distance vs.b
  let d₂ ← field.distance vs.c
  return order.key (.ofMean d₀ d₁ d₂)

/-- an edge that a cut can follow: a feature edge, or one with two triangles -/
def isCuttable (m : Mesh α) (e : EdgeId) : Except Fault Bool := do
  if ← m.isFeatureEdge e then return true
  else return !(← m.isBoundaryEdge e)

/-- the spanning forest of the dual graph under a field and an order -/
def spanningForest (m : Mesh α) (field : DistanceField α) (order : GrowthOrder) :
    Except Fault SpanningForest := do
  let count := m.triangles.size
  let keys ← (List.range count).mapM (m.growthKey field order)
  let cuttable ← (List.range m.edges.size).filterM m.isCuttable
  let grown ← (List.range count).foldlM (Growth.plant m keys.toArray)
    { visited := (List.replicate count false).toArray
      parentEdge := (List.replicate count none).toArray
      candidates := ExtTreeSet.ofList cuttable compare
      roots := []
      frontier := ∅ }
  return ⟨grown.candidates, grown.parentEdge, grown.roots⟩

end Mesh
end DiskCut
