import DiskCut.Proofs.CutGraph.Slit

/-!
# What anchors a cut graph is joined by it

* `Slit.walk`                  along cut edges and open edges, between anchored vertices of one part
                               of the dual graph
* `computeCutGraph_anchors`    for every result of the pipeline

The walk that the graph has before any removal loses nothing but excursions to dangling ends, and
an anchored vertex never is one.
-/

namespace DiskCut
open Std
namespace Mesh
variable {α : Type} {m : Mesh α}

theorem Slit.walk {f : SpanningForest} {h : List Visit} {p : List Removal} {g : CutGraph}
    {t u : TriangleId} {v w : VertexId} (hs : m.Slit f h p g) (ht : m.IsCorner t v)
    (hu : m.IsCorner u w) (hdual : Relation.ReflTransGen m.Dual t u) (hv : m.IsAnchored v)
    (hw : m.IsAnchored w) : m.Walk (fun e => e ∈ g.edges ∨ m.IsOpen e) v w := by
  have hgraph := hs.walk_of_dual ht hu hdual
  have hlive := hs.trimmed.peeled.walk (hs.ne_leaf hv) (hs.ne_leaf hw) hgraph
  exact hlive.mono fun e he => hs.live_iff.mp he

section
variable [Scalar α] [Extended α] [Trig α] {options : Options α} {r : CutResult α}
  {t u : TriangleId} {v w : VertexId}

/-- anchored vertices of one part of the dual graph are joined by a walk along edges of the cut
graph and open edges -/
theorem computeCutGraph_anchors (hm : Obtained m) (hc : m.Constrained)
    (hr : (m.computeCutGraph options).result = .ok r) (ht : r.mesh.IsCorner t v)
    (hu : r.mesh.IsCorner u w) (hdual : Relation.ReflTransGen r.mesh.Dual t u)
    (hv : r.mesh.IsAnchored v) (hw : r.mesh.IsAnchored w) :
    r.mesh.Walk (fun e => e ∈ r.cutGraph.edges ∨ r.mesh.IsOpen e) v w := by
  obtain ⟨f, h, p, hs, _⟩ := hm.slit hc hr
  exact hs.walk ht hu hdual hv hw

end

theorem anchors_threeTriangles : ∃ m r, threeTriangles.result = .ok m ∧
    (m.computeCutGraph default).result = .ok r ∧ r.mesh.IsAnchored 6 ∧ r.mesh.IsAnchored 4 ∧
    r.mesh.Walk (fun e => e ∈ r.cutGraph.edges ∨ r.mesh.IsOpen e) 6 4 := by
  obtain ⟨m, r, hm, hc, hr, hp⟩ := exists_threeTrianglesCut (p := fun r =>
    r.mesh.triangles[1]? == some ⟨5, 6, 3⟩ && r.mesh.triangles[2]? == some ⟨5, 3, 4⟩
      && (r.mesh.edges[1]?.map fun x => (x.ends, x.isFeature)) == some ((5, 6), true)
      && (r.mesh.edges[5]?.map (·.isFeature)) == some false
      && (r.mesh.edges[6]?.map (·.ends)) == some (3, 4)
      && r.mesh.edgeTriangles[5]? == some [1, 2] && r.mesh.edgeTriangles[6]? == some [2])
    (by decide +kernel)
  simp only [Bool.and_eq_true, beq_iff_eq, Option.map_eq_some_iff, Prod.mk.injEq] at hp
  obtain ⟨⟨⟨⟨⟨⟨htop, hbottom⟩, x, hx, hends, hfeature⟩, y, hy, hplain⟩, z, hz, hends'⟩, hinner⟩,
    hopen⟩ := hp
  have hu : r.mesh.IsAnchored 6 := .inr ⟨1, ⟨x, hx, .inr (by rw [hends])⟩, .inl ⟨x, hx, hfeature⟩⟩
  have hw : r.mesh.IsAnchored 4 := .inr ⟨6, ⟨z, hz, .inr (by rw [hends'])⟩, .inr ⟨2, hopen⟩⟩
  have hdual : r.mesh.Dual 1 2 :=
    ⟨5, ⟨y, hy, hplain⟩, ⟨_, hinner, by simp⟩, ⟨_, hinner, by simp⟩⟩
  exact ⟨m, r, hm, hr, hu, hw, computeCutGraph_anchors (.ofTriangles hm) hc hr ⟨_, htop, 1, rfl⟩
    ⟨_, hbottom, 2, rfl⟩ (.single hdual) hu hw⟩

end Mesh
end DiskCut
