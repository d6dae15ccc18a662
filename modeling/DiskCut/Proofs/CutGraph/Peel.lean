import DiskCut.Proofs.Mesh.Sound

/-!
# Peeling a graph at its dangling ends

The graph has the candidates `K`, the feature edges and the boundary edges.  Its edges are removed
one by one, each at a vertex that hangs on to nothing else; a run is told by its removals, the
latest first.

* `InGraph m K e`     edge `e` is in the graph
* `Live m K h e`      and the removals `h` have left it
* `Dangles m K h v e` vertex `v` is not singular, and `e` is its only edge and removable
* `Peeled m K h`      the removals `h` can be made
* `Peeled.walk`       what is never removed as a dangling end stays connected
-/

namespace DiskCut
open Std
namespace Mesh
variable {α : Type}

/-- edge `e` has fewer than two triangles -/
def IsBoundary (m : Mesh α) (e : EdgeId) : Prop :=
  ∃ ts, m.edgeTriangles[e]? = some ts ∧ ts.length < 2

def InGraph (m : Mesh α) (K : ExtTreeSet EdgeId) (e : EdgeId) : Prop :=
  e ∈ K ∨ m.IsFeature e ∨ m.IsBoundary e

def IsRemovable (m : Mesh α) (K : ExtTreeSet EdgeId) (e : EdgeId) : Prop := e ∈ K ∧ m.IsPlain e

/-- the edge removed, the dangling end and the other end -/
structure Removal where
  edge : EdgeId
  leaf : VertexId
  across : VertexId

def Live (m : Mesh α) (K : ExtTreeSet EdgeId) (h : List Removal) (e : EdgeId) : Prop :=
  m.InGraph K e ∧ ∀ x ∈ h, x.edge ≠ e

structure Dangles (m : Mesh α) (K : ExtTreeSet EdgeId) (h : List Removal) (v : VertexId)
    (e : EdgeId) : Prop where
  regular : v ∉ m.singularities
  removable : m.IsRemovable K e
  live : m.Live K h e
  isEnd : m.IsEnd e v
  only : ∀ d, m.Live K h d → m.IsEnd d v → d = e

inductive Peeled (m : Mesh α) (K : ExtTreeSet EdgeId) : List Removal → Prop where
  | nil : Peeled m K []
  | remove {h : List Removal} {x : Removal} : Peeled m K h → m.Dangles K h x.leaf x.edge →
      m.Joins x.edge x.leaf x.across → Peeled m K (x :: h)

section
variable {m : Mesh α} {K : ExtTreeSet EdgeId} {h : List Removal} {x : Removal} {e : EdgeId}
  {u v w : VertexId}

theorem live_nil : m.Live K [] e ↔ m.InGraph K e := by
  simp [Live]

theorem live_cons : m.Live K (x :: h) e ↔ m.Live K h e ∧ e ≠ x.edge := by
  unfold Live
  rw [List.forall_mem_cons, ne_comm]
  tauto

namespace Peeled

theorem removable (hp : Peeled m K h) : ∀ x ∈ h, m.IsRemovable K x.edge := by
  induction hp with
  | nil => simp
  | remove _ hdangle _ ih => exact List.forall_mem_cons.mpr ⟨hdangle.removable, ih⟩

theorem joins (hp : Peeled m K h) : ∀ x ∈ h, m.Joins x.edge x.leaf x.across := by
  induction hp with
  | nil => simp
  | remove _ _ hjoin ih => exact List.forall_mem_cons.mpr ⟨hjoin, ih⟩

theorem regular (hp : Peeled m K h) : ∀ x ∈ h, x.leaf ∉ m.singularities := by
  induction hp with
  | nil => simp
  | remove _ hdangle _ ih => exact List.forall_mem_cons.mpr ⟨hdangle.regular, ih⟩

/-- an edge that is not removable stays -/
theorem live_of_fixed (hp : Peeled m K h) (he : m.InGraph K e) (hfixed : ¬ m.IsRemovable K e) :
    m.Live K h e := by
  refine ⟨he, fun x hx heq => hfixed ?_⟩
  rw [← heq]
  exact hp.removable x hx

theorem nodup_edges (hp : Peeled m K h) : (h.map Removal.edge).Nodup := by
  induction hp with
  | nil => exact List.nodup_nil
  | remove _ hdangle _ ih =>
    rw [List.map_cons, List.nodup_cons]
    refine ⟨fun hmem => ?_, ih⟩
    obtain ⟨y, hy, heq⟩ := List.mem_map.mp hmem
    exact hdangle.live.2 y hy heq

/-- a vertex where an edge was removed as a dangling end has no edge any more -/
theorem not_live_leaf (hp : Peeled m K h) :
    ∀ x ∈ h, ∀ e, m.Live K h e → ¬ m.IsEnd e x.leaf := by
  induction hp with
  | nil => simp
  | remove _ hdangle _ ih =>
    intro y hy e he hend
    rw [live_cons] at he
    rcases List.mem_cons.mp hy with rfl | hy
    · exact he.2 (hdangle.only e he.1 hend)
    · exact ih y hy e he.1 hend

theorem nodup_leaves (hp : Peeled m K h) : (h.map Removal.leaf).Nodup := by
  induction hp with
  | nil => exact List.nodup_nil
  | remove hp hdangle _ ih =>
    rw [List.map_cons, List.nodup_cons]
    refine ⟨fun hmem => ?_, ih⟩
    obtain ⟨y, hy, heq⟩ := List.mem_map.mp hmem
    exact hp.not_live_leaf y hy _ hdangle.live (heq ▸ hdangle.isEnd)

end Peeled

/-! ## walks -/

/-- a vertex, with the dangling end drawn back to the other end of its edge -/
def Removal.back (x : Removal) (v : VertexId) : VertexId := if v = x.leaf then x.across else v

theorem Removal.back_of_ne (hv : v ≠ x.leaf) : x.back v = v := if_neg hv

theorem Removal.back_eq_across (hv : v = x.leaf ∨ v = x.across) : x.back v = x.across := by
  unfold Removal.back
  rcases hv with rfl | rfl
  · rw [if_pos rfl]
  · rw [ite_self]

theorem Dangles.walk_back (hdangle : m.Dangles K h x.leaf x.edge)
    (hjoin : m.Joins x.edge x.leaf x.across) (hwalk : m.Walk (m.Live K h) u w) :
    m.Walk (m.Live K (x :: h)) (x.back u) (x.back w) := by
  induction hwalk with
  | refl => exact .refl
  | @tail b c _ hstep ih =>
    obtain ⟨e, he, hbc⟩ := hstep
    by_cases hex : e = x.edge
    · have hends : ∀ v, v = b ∨ v = c → x.back v = x.across := by
        intro v hv
        rw [hex] at hbc
        exact Removal.back_eq_across (hjoin.isEnd_iff.mp (hbc.isEnd_iff.mpr hv))
      rw [hends c (.inr rfl), ← hends b (.inl rfl)]
      exact ih
    · have hoff : ∀ v, m.IsEnd e v → x.back v = v := by
        intro v hv
        apply Removal.back_of_ne
        intro heq
        subst heq
        exact hex (hdangle.only e he hv)
      rw [hoff c hbc.isEnd_right]
      rw [hoff b hbc.isEnd_left] at ih
      exact ih.trans (.single (live_cons.mpr ⟨he, hex⟩) hbc)

/-- vertices that were no dangling ends stay connected -/
theorem Peeled.walk (hp : Peeled m K h) (hu : ∀ x ∈ h, u ≠ x.leaf) (hw : ∀ x ∈ h, w ≠ x.leaf)
    (hwalk : m.Walk (m.InGraph K) u w) : m.Walk (m.Live K h) u w := by
  induction hp with
  | nil => exact hwalk.mono fun e he => live_nil.mpr he
  | remove _ hdangle hjoin ih =>
    rw [List.forall_mem_cons] at hu hw
    have hback := hdangle.walk_back hjoin (ih hu.2 hw.2)
    rwa [Removal.back_of_ne hu.1, Removal.back_of_ne hw.1] at hback

end
end Mesh
end DiskCut
