import DiskCut.Proofs.CutGraph.Slit
import Mathlib.Data.Finset.Image
import Mathlib.Data.Finset.Dedup

/-!
# A slit mesh falls into disks

* `Adjoins m g t u`     triangles `t` and `u` share an edge that is not cut
* `pieces m g`          the triangles, gathered in pieces that adjoin
* `IsFree m g v`        vertex `v` of a triangle is off singularities, cut and open boundary
* `DiskLaw r`           as many pieces as trees, and the count of a disk for each
* `computeCutGraph_disks`   every result with an anchor in each part of the dual graph

Trees are joined through their parent edges, which are not cut, so pieces are trees.  An edge that
is not cut is a parent edge or was removed; there is one parent edge for each triangle but the
roots, and one free vertex for each removal, the dangling end.  No other vertex becomes free: it
would have kept a walk to an anchor.
-/

namespace DiskCut
open Std
namespace Mesh
variable {α : Type}

def Adjoins (m : Mesh α) (g : CutGraph) (t u : TriangleId) : Prop :=
  ∃ e, m.IsUncut g e ∧ m.Incident e t ∧ m.Incident e u

def IsFree (m : Mesh α) (g : CutGraph) (v : VertexId) : Prop :=
  (∃ t, m.IsCorner t v) ∧ v ∉ m.singularities ∧
    ∀ e, m.IsEnd e v → e ∉ g.edges ∧ ¬ m.IsOpen e

open Classical in
noncomputable def pieceOf (m : Mesh α) (g : CutGraph) (t : TriangleId) : Finset TriangleId :=
  (Finset.range m.triangles.size).filter (Relation.ReflTransGen (m.Adjoins g) t)

open Classical in
noncomputable def pieces (m : Mesh α) (g : CutGraph) : Finset (Finset TriangleId) :=
  (Finset.range m.triangles.size).image (m.pieceOf g)

open Classical in
noncomputable def uncutEdges (m : Mesh α) (g : CutGraph) : Finset EdgeId :=
  (Finset.range m.edges.size).filter (m.IsUncut g)

open Classical in
noncomputable def freeVertices (m : Mesh α) (g : CutGraph) : Finset VertexId :=
  (Finset.range m.vertices.size).filter (m.IsFree g)

structure DiskLaw (r : CutResult α) : Prop where
  pieces : (r.mesh.pieces r.cutGraph).card = r.numComponents
  count : (r.mesh.triangles.size : Int) - (r.mesh.uncutEdges r.cutGraph).card
    + (r.mesh.freeVertices r.cutGraph).card = r.numComponents

/-- every part of the dual graph has a triangle with a feature edge, an open edge or a singular
corner -/
def PartsAnchored (m : Mesh α) : Prop :=
  ∀ t < m.triangles.size, ∃ u, Relation.ReflTransGen m.Dual t u ∧
    ((∃ e, m.Incident e u ∧ (m.IsFeature e ∨ m.IsOpen e)) ∨
      ∃ v, m.IsCorner u v ∧ v ∈ m.singularities)

section
variable {m : Mesh α} {f : SpanningForest} {h : List Visit} {p : List Removal} {g : CutGraph}
  {e : EdgeId} {t u : TriangleId} {v : VertexId}

instance adjoins_symm : Std.Symm (m.Adjoins g) where
  symm := by
    intro t u ⟨e, he, ht, hu⟩
    exact ⟨e, he, hu, ht⟩

theorem PartsAnchored.exists_anchor (fit : m.Fitted) (ha : m.PartsAnchored)
    (ht : t < m.triangles.size) : ∃ u a, Relation.ReflTransGen m.Dual t u ∧ m.IsCorner u a ∧
      m.IsAnchored a := by
  obtain ⟨u, hdual, ⟨e, hinc, hkind⟩ | ⟨a, ha, hsingular⟩⟩ := ha t ht
  · obtain ⟨vs, j, _, hjoin⟩ := fit.exists_joins hinc
    have hend := hjoin.isEnd_left
    exact ⟨u, _, hdual, fit.isCorner_of_incident hinc hend, .inr ⟨e, hend, hkind⟩⟩
  · exact ⟨u, a, hdual, ha, .inl hsingular⟩

namespace Slit
variable (hs : m.Slit f h p g)
include hs

/-! ## pieces -/

theorem dual_of_adjoins (htu : m.Adjoins g t u) : m.Dual t u := by
  obtain ⟨e, he, ht, hu⟩ := htu
  exact ⟨e, hs.isPlain_of_isUncut he, ht, hu⟩

/-- pieces are the parts of the dual graph -/
theorem adjoins_iff_dual (ht : t < m.triangles.size) (hu : u < m.triangles.size) :
    Relation.ReflTransGen (m.Adjoins g) t u ↔ Relation.ReflTransGen m.Dual t u := by
  have hg := hs.spanning.grown
  refine ⟨?_, ?_⟩
  · exact Relation.ReflTransGen.mono (fun _ _ => hs.dual_of_adjoins) t u
  · intro hdual
    obtain ⟨x, hx, rfl⟩ := hs.spanning.seen t ht
    obtain ⟨y, hy, rfl⟩ := hs.spanning.seen u hu
    have hroot := (hg.root_eq_iff hs.spanning.closed hx hy).mpr hdual
    have hstep : ∀ t u, m.TreeStep h t u → m.Adjoins g t u :=
      fun t u ⟨e, he, hinc⟩ => ⟨e, hs.isUncut_iff.mpr (.inl he), hinc⟩
    have hup := Relation.ReflTransGen.mono hstep _ _ (hg.tree_root x hx)
    have hdown := Relation.ReflTransGen.mono hstep _ _ (hg.tree_root y hy)
    rw [← hroot] at hdown
    exact (Relation.ReflTransGen.stdSymm.symm _ _ hup).trans hdown

theorem pieceOf_eq_iff (ht : t < m.triangles.size) (hu : u < m.triangles.size) :
    m.pieceOf g t = m.pieceOf g u ↔ Relation.ReflTransGen m.Dual t u := by
  classical
  rw [← hs.adjoins_iff_dual ht hu]
  have hmem : ∀ t w, w ∈ m.pieceOf g t ↔
      w < m.triangles.size ∧ Relation.ReflTransGen (m.Adjoins g) t w := by
    intro t w
    unfold pieceOf
    rw [Finset.mem_filter, Finset.mem_range]
  refine ⟨?_, ?_⟩
  · intro heq
    exact ((hmem t u).mp (heq ▸ (hmem u u).mpr ⟨hu, .refl⟩)).2
  · intro htu
    ext w
    rw [hmem, hmem]
    refine and_congr_right fun _ => ⟨fun hw => ?_, fun hw => htu.trans hw⟩
    exact (Relation.ReflTransGen.stdSymm.symm _ _ htu).trans hw

/-- as many pieces as trees: each has one root -/
theorem card_pieces : (m.pieces g).card = f.numComponents := by
  classical
  have hg := hs.spanning.grown
  have hlt : ∀ x ∈ h, x.triangle < m.triangles.size := hg.lt_size hs.coherent.toFitted
  have hpieces : m.pieces g = f.roots.toFinset.image (m.pieceOf g) := by
    unfold pieces
    ext P
    rw [Finset.mem_image, Finset.mem_image]
    refine ⟨?_, ?_⟩
    · intro hex
      obtain ⟨t, ht, rfl⟩ := hex
      obtain ⟨x, hx, rfl⟩ := hs.spanning.seen t (Finset.mem_range.mp ht)
      obtain ⟨y, hy, hroot, _, hnone⟩ := hg.exists_root x hx
      refine ⟨y.triangle, ?_, ?_⟩
      · exact List.mem_toFinset.mpr (hs.spanning.mem_roots.mpr ⟨y, hy, hnone, rfl⟩)
      · rw [hs.pieceOf_eq_iff (hlt y hy) (hlt x hx), hroot]
        exact hg.dual_root x hx
    · intro hex
      obtain ⟨t, ht, rfl⟩ := hex
      obtain ⟨x, hx, _, rfl⟩ := hs.spanning.mem_roots.mp (List.mem_toFinset.mp ht)
      exact ⟨x.triangle, Finset.mem_range.mpr (hlt x hx), rfl⟩
  have hinj : Set.InjOn (m.pieceOf g) f.roots.toFinset := by
    intro t ht u hu heq
    obtain ⟨x, hx, hxnone, rfl⟩ := hs.spanning.mem_roots.mp (List.mem_toFinset.mp ht)
    obtain ⟨y, hy, hynone, rfl⟩ := hs.spanning.mem_roots.mp (List.mem_toFinset.mp hu)
    rw [hs.pieceOf_eq_iff (hlt x hx) (hlt y hy)] at heq
    have hroot := (hg.root_eq_iff hs.spanning.closed hx hy).mpr heq
    rwa [hg.root_eq_of_parent_none x hx hxnone, hg.root_eq_of_parent_none y hy hynone] at hroot
  rw [hpieces, Finset.card_image_of_injOn hinj, List.toFinset_card_of_nodup hs.spanning.nodup_roots]
  rfl

/-! ## edges that are not cut -/

theorem nodup_uncut : (h.filterMap Visit.parent ++ p.map Removal.edge).Nodup := by
  rw [List.nodup_append]
  refine ⟨hs.spanning.grown.nodup_parents hs.coherent.toFitted, hs.trimmed.peeled.nodup_edges, ?_⟩
  rintro e he d hd rfl
  obtain ⟨x, hx, hxe⟩ := List.mem_filterMap.mp he
  obtain ⟨y, hy, rfl⟩ := List.mem_map.mp hd
  exact (hs.isRemovable_iff.mp (hs.trimmed.peeled.removable y hy)).2.2 ⟨x, hx, hxe⟩

/-- one edge for each triangle but the roots, and one for each removal -/
theorem card_uncutEdges :
    (m.uncutEdges g).card + f.numComponents = m.triangles.size + p.length := by
  classical
  have hlist : m.uncutEdges g = (h.filterMap Visit.parent ++ p.map Removal.edge).toFinset := by
    unfold uncutEdges
    ext e
    rw [Finset.mem_filter, Finset.mem_range, List.mem_toFinset, List.mem_append, List.mem_filterMap,
      List.mem_map, hs.isUncut_iff]
    refine ⟨And.right, fun hmem => ⟨?_, hmem⟩⟩
    obtain ⟨⟨t, u, htu⟩, _⟩ := hs.isUncut_iff.mpr hmem
    exact hs.coherent.lt_size_of_incident ⟨_, htu, List.mem_cons_self⟩
  have hlen := length_parents h
  rw [hs.spanning.length_roots, hs.spanning.length_visits hs.coherent.toFitted] at hlen
  rw [hlist, List.toFinset_card_of_nodup hs.nodup_uncut, List.length_append, List.length_map]
  omega

/-! ## free vertices -/

theorem isFree_leaf {x : Removal} (hx : x ∈ p) : m.IsFree g x.leaf := by
  have hp := hs.trimmed.peeled
  have hend := (hp.joins x hx).isEnd_left
  obtain ⟨t, ht⟩ := hs.coherent.exists_incident hend.lt_size
  refine ⟨⟨t, hs.coherent.isCorner_of_incident ht hend⟩, hp.regular x hx, fun e he => ?_⟩
  have hnot : ¬ m.Live f.candidates p e := fun hlive => hp.not_live_leaf x hx e hlive he
  rwa [hs.live_iff, not_or] at hnot

/-- a vertex becomes free only as a dangling end -/
theorem exists_leaf (ha : m.PartsAnchored) (hv : m.IsFree g v) : ∃ x ∈ p, x.leaf = v := by
  obtain ⟨⟨t, ht⟩, hregular, hoff⟩ := hv
  by_contra hnever
  have hne : ∀ x ∈ p, v ≠ x.leaf := fun x hx heq => hnever ⟨x, hx, heq.symm⟩
  obtain ⟨u, a, hdual, hcorner, hanchor⟩ := ha.exists_anchor hs.coherent.toFitted ht.lt_size
  have hgraph := hs.walk_of_dual ht hcorner hdual
  have hwalk := hs.trimmed.peeled.walk hne (hs.ne_leaf hanchor) hgraph
  -- no edge is left at the vertex, so it is the anchor itself
  have hva : v = a := by
    rcases hwalk.cases_head with heq | ⟨w, ⟨e, he, hjoin⟩, _⟩
    · exact heq
    · have hends := hoff e hjoin.isEnd_left
      exact absurd (hs.live_iff.mp he) (not_or.mpr hends)
  subst hva
  rcases hanchor with hsingular | ⟨e, hend, hkind⟩
  · exact hregular hsingular
  · exact not_or.mpr (hoff e hend) (hkind.imp_left hs.mem_of_isFeature)

/-- one free vertex for each removal -/
theorem card_freeVertices (ha : m.PartsAnchored) : (m.freeVertices g).card = p.length := by
  classical
  have hlist : m.freeVertices g = (p.map Removal.leaf).toFinset := by
    unfold freeVertices
    ext v
    rw [Finset.mem_filter, Finset.mem_range, List.mem_toFinset, List.mem_map]
    refine ⟨?_, ?_⟩
    · exact fun hv => hs.exists_leaf ha hv.2
    · intro hex
      obtain ⟨x, hx, rfl⟩ := hex
      have hfree := hs.isFree_leaf hx
      obtain ⟨⟨t, ht⟩, _⟩ := hfree
      exact ⟨hs.coherent.corner_lt_of_isCorner ht, hs.isFree_leaf hx⟩
  rw [hlist, List.toFinset_card_of_nodup hs.trimmed.peeled.nodup_leaves, List.length_map]

end Slit
end

section
variable [Scalar α] [Extended α] [Trig α] {m : Mesh α} {options : Options α} {r : CutResult α}

/-- a cut graph with an anchor in each part of the dual graph leaves one disk for each part -/
theorem computeCutGraph_disks (hm : Obtained m) (hc : m.Constrained)
    (hr : (m.computeCutGraph options).result = .ok r) (ha : r.mesh.PartsAnchored) :
    DiskLaw r := by
  obtain ⟨f, h, p, hs, hcomponents⟩ := hm.slit hc hr
  have huncut := hs.card_uncutEdges
  have hfree := hs.card_freeVertices ha
  refine ⟨hs.card_pieces.trans hcomponents.symm, ?_⟩
  rw [hcomponents, hfree]
  omega

end

theorem disks_threeTriangles : ∃ m r, threeTriangles.result = .ok m ∧
    (m.computeCutGraph default).result = .ok r ∧ r.mesh.PartsAnchored ∧ DiskLaw r := by
  obtain ⟨m, r, hm, hc, hr, hp⟩ := exists_threeTrianglesCut (p := fun r =>
    (List.range r.mesh.triangles.size).all fun t =>
      (List.range r.mesh.edges.size).any fun e => r.mesh.edgeTriangles[e]? == some [t])
    (by decide +kernel)
  have ha : r.mesh.PartsAnchored := by
    intro t ht
    obtain ⟨e, _, hopen⟩ := List.any_eq_true.mp (List.all_eq_true.mp hp t (List.mem_range.mpr ht))
    have hopen := eq_of_beq hopen
    exact ⟨t, .refl, .inl ⟨e, ⟨_, hopen, List.mem_singleton_self t⟩, .inr ⟨t, hopen⟩⟩⟩
  exact ⟨m, r, hm, hr, ha, computeCutGraph_disks (.ofTriangles hm) hc hr ha⟩

end Mesh
end DiskCut
