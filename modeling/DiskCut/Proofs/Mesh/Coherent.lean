import DiskCut.Proofs.Mesh.Features
import DiskCut.Mesh.Edit

/-!
# Coherent meshes

* `WellPosed m`          the given part of a mesh makes sense: corners exist and differ
* `Coherent m`           and the derived part is that of the given part
* `UpToDate m`           the edges and the adjacency are those of the triangles
* `UpToDate.isValid`     such a mesh passes the test of validity, and a coherent mesh is one
* `Tabled.updateEdges_self`   an update of the edges leaves such a mesh alone

Designations and updates of the normals keep a mesh coherent.
-/

namespace DiskCut
open Std
namespace Mesh
variable {α : Type} {m m' : Mesh α}

/-- triangles have three different corners, and all indices name vertices -/
structure WellPosed (m : Mesh α) : Prop where
  corner_lt : ∀ {t : TriangleId} {vs}, m.triangles[t]? = some vs →
    ∀ j, vs.get j < m.vertices.size
  proper : m.Proper
  singular_lt : ∀ v ∈ m.singularities, v < m.vertices.size

/-- the derived part of a mesh is that of its given part -/
structure Coherent (m : Mesh α) : Prop extends m.Sound where
  covered : ∀ {e : EdgeId} {x : Edge α}, m.edges[e]? = some x → m.trianglesOn x.ends ≠ []
  covers : ∀ line ∈ m.lines.toList, m.Covers line
  starred : m.Starred
  singular_lt : ∀ v ∈ m.singularities, v < m.vertices.size

theorem Coherent.wellPosed (h : m.Coherent) : m.WellPosed := ⟨h.corner_lt, h.proper, h.singular_lt⟩

/-- every edge has a triangle -/
theorem Coherent.exists_incident (h : m.Coherent) {e : EdgeId} (he : e < m.edges.size) :
    ∃ t, m.Incident e t := by
  have hx := Array.getElem?_eq_getElem he
  obtain ⟨t, ht⟩ := List.exists_mem_of_ne_nil _ (h.covered hx)
  exact ⟨t, _, h.adjacent.present hx, ht⟩

/-- a side has two ends -/
theorem Fitted.ends_ne (h : m.Fitted) {e : EdgeId} {x : Edge α} (hx : m.edges[e]? = some x)
    (hside : m.trianglesOn x.ends ≠ []) : x.ends.1 ≠ x.ends.2 := by
  obtain ⟨t, ht⟩ := List.exists_mem_of_ne_nil _ hside
  exact h.ne_of_joins ⟨_, h.adjacent.present hx, ht⟩ ⟨x, hx, (h.tabled.edgeKey_ends hx).symm⟩

theorem Coherent.ends_ne (h : m.Coherent) {e : EdgeId} {x : Edge α} (hx : m.edges[e]? = some x) :
    x.ends.1 ≠ x.ends.2 :=
  h.toFitted.ends_ne hx (h.covered hx)

theorem Coherent.ends_lt (h : m.Coherent) {e : EdgeId} {x : Edge α} (hx : m.edges[e]? = some x) :
    x.ends.1 < x.ends.2 :=
  Nat.lt_of_le_of_ne (h.tabled.ends_le hx) (h.ends_ne hx)

/-! ## validity -/

/-- a table has as many pairs as edges -/
theorem Tabled.size_edgeIndex (h : m.Tabled) : m.edgeIndex.size = m.edges.size := by
  have hperm : (m.edgeIndex.toList.map Prod.snd).Perm (List.range m.edges.size) := by
    refine (List.perm_ext_iff_of_nodup ?_ List.nodup_range).mpr fun e => ?_
    · refine List.Nodup.map_on ?_ (List.Pairwise.imp ?_ m.edgeIndex.distinct_keys_toList)
      · intro p hp q hq hpq
        have hp' := ExtTreeMap.mem_toList_iff_getElem?_eq_some.mp (show (p.1, p.2) ∈ _ from hp)
        have hq' := ExtTreeMap.mem_toList_iff_getElem?_eq_some.mp (show (q.1, q.2) ∈ _ from hq)
        obtain ⟨x, hx, hxp⟩ := h.edge_of_index hp'
        rw [hpq] at hx
        exact Prod.ext (hxp.symm.trans (h.ends_eq hx hq')) hpq
      · intro p q hne hpq
        exact hne (pairOrder_eq_iff.mpr (congrArg Prod.fst hpq))
    · rw [List.mem_range, List.mem_map]
      refine ⟨?_, ?_⟩
      · intro he
        obtain ⟨p, hp, rfl⟩ := he
        exact h.lt_size (ExtTreeMap.mem_toList_iff_getElem?_eq_some.mp (show (p.1, p.2) ∈ _ from hp))
      · intro he
        have hk := h.index_of_edge (Array.getElem?_eq_getElem he)
        exact ⟨_, ExtTreeMap.mem_toList_iff_getElem?_eq_some.mpr hk, rfl⟩
  rw [← ExtTreeMap.length_toList, ← List.length_map (f := Prod.snd), hperm.length_eq,
    List.length_range]

/-- edges and adjacency are those of the triangles, no edge is useless, and none joins a vertex to
itself -/
structure UpToDate (m : Mesh α) : Prop where
  tabled : m.Tabled
  adjacent : m.Adjacent
  feature : ∀ e, e ∈ m.featureEdges ↔ m.IsFeature e
  used : ∀ {e : EdgeId} {x : Edge α}, m.edges[e]? = some x →
    x.isFeature = true ∨ m.trianglesOn x.ends ≠ []
  ends_ne : ∀ {e : EdgeId} {x : Edge α}, m.edges[e]? = some x → x.ends.1 ≠ x.ends.2

theorem Coherent.upToDate (h : m.Coherent) : m.UpToDate where
  tabled := h.tabled
  adjacent := h.adjacent
  feature := h.feature
  used := fun hx => .inr (h.covered hx)
  ends_ne := h.ends_ne

namespace UpToDate
variable (h : m.UpToDate)
include h

theorem isSide {t : TriangleId} {vs : Triple VertexId} (hvs : m.triangles[t]? = some vs)
    {e : EdgeId} {j : Fin 3} (he : m.edgeIndex[vs.keys.get j]? = some e) :
    m.isSide t e (vs.get j) (vs.get (j + 1)) = true := by
  obtain ⟨x, hx, hends⟩ := h.tabled.edge_of_index he
  have hjoin : m.Joins e (vs.get j) (vs.get (j + 1)) := ⟨x, hx, by rw [hends, Triple.get_keys]⟩
  have hmem : t ∈ m.trianglesOn x.ends := mem_trianglesOn.mpr ⟨vs, hvs, j, hends.symm⟩
  have hcontains : ∀ v, m.IsEnd e v → x.contains v = true := by
    intro v hv
    obtain ⟨y, hy, hv⟩ := hv
    rw [hx] at hy
    obtain rfl := Option.some.inj hy
    simpa [Edge.contains] using hv
  unfold Mesh.isSide
  simp only [hx, h.adjacent.present hx, hcontains _ hjoin.isEnd_left,
    hcontains _ hjoin.isEnd_right, Bool.true_and, List.contains_eq_mem, hmem, decide_true]

theorem hasSides {x : Triple VertexId × TriangleId} (hx : x ∈ m.numberedTriangles) :
    m.hasSides x = true := by
  obtain ⟨vs, t⟩ := x
  have hvs := mem_numberedTriangles.mp hx
  obtain ⟨es, hes, hside⟩ := h.adjacent.side hvs
  have h₀ := h.isSide hvs (hside 0)
  have h₁ := h.isSide hvs (hside 1)
  have h₂ := h.isSide hvs (hside 2)
  unfold Mesh.hasSides
  simp only [hes, Bool.and_eq_true]
  exact ⟨⟨h₀, h₁⟩, h₂⟩

theorem isConsistentEdge {x : Edge α × EdgeId} (hx : x ∈ m.edges.toList.zipIdx) :
    m.isConsistentEdge x = true := by
  obtain ⟨x, e⟩ := x
  rw [List.mk_mem_zipIdx_iff_getElem?, Array.getElem?_toList] at hx
  have hfeature : x.isFeature = m.featureEdges.contains e := by
    rw [Bool.eq_iff_iff, ExtTreeSet.contains_iff_mem, h.feature e]
    refine ⟨?_, ?_⟩
    · intro hf
      exact ⟨x, hx, hf⟩
    · intro ⟨y, hy, hf⟩
      rw [hx] at hy
      rw [Option.some.inj hy]
      exact hf
  have hlt := Nat.lt_of_le_of_ne (h.tabled.ends_le hx) (h.ends_ne hx)
  have hused : (decide (0 < (m.trianglesOn x.ends).length) || x.isFeature) = true := by
    rw [Bool.or_eq_true, decide_eq_true_iff, List.length_pos_iff]
    exact (h.used hx).symm
  unfold Mesh.isConsistentEdge
  simp only [h.adjacent.present hx, Option.getD_some, hlt, h.tabled.index_of_edge hx,
    ← hfeature, h.adjacent.few x.ends, hused, decide_true, beq_self_eq_true, Bool.true_and]

/-- a mesh that is up to date is valid -/
theorem isValid : m.isValid = true := by
  have hsides := List.all_eq_true.mpr fun _ hx => h.hasSides hx
  have hedges := List.all_eq_true.mpr fun _ hx => h.isConsistentEdge hx
  unfold Mesh.isValid
  simp only [h.adjacent.size, h.tabled.size_eq, h.tabled.size_edgeIndex, hsides, hedges,
    beq_self_eq_true, Bool.and_true]

end UpToDate

/-! ## meshes that an update leaves alone -/

theorem Tabled.edgeIndex_eq (tab : m.Tabled) (tab' : m'.Tabled) (edges : m'.edges = m.edges) :
    m'.edgeIndex = m.edgeIndex := by
  refine ExtTreeMap.ext_getElem? fun k => Option.ext fun e => ?_
  refine ⟨fun hk => ?_, fun hk => ?_⟩
  · obtain ⟨x, hx, rfl⟩ := tab'.edge_of_index hk
    exact tab.index_of_edge (edges ▸ hx)
  · obtain ⟨x, hx, rfl⟩ := tab.edge_of_index hk
    exact tab'.index_of_edge (edges.symm ▸ hx)

section
variable [Scalar α]

/-- the pairs of all sides are there already, so an update adds none -/
theorem Updated.edges_eq (hup : Updated m m') (tab : m.Tabled) (adj : m.Adjacent) :
    m'.edges = m.edges := by
  refine Array.ext_getElem? fun e => Option.ext fun x => ⟨fun hx => ?_, fun hx => hup.old hx⟩
  rcases hup.fresh hx with hold | ⟨a, b, rfl, hne⟩
  · exact hold
  · obtain ⟨t, ht⟩ := List.exists_mem_of_ne_nil _ hne
    obtain ⟨vs, hvs, j, hj⟩ := mem_trianglesOn.mp ht
    obtain ⟨es, _, hside⟩ := adj.side hvs
    obtain ⟨y, hy, hends⟩ := tab.edge_of_index (hside j)
    have hsame := hup.tabled.eq_of_ends hx (hup.old hy) (hj.symm.trans hends.symm)
    subst hsame
    rw [hup.old hy] at hx
    exact hx ▸ hy

omit [Scalar α] in
theorem Adjacent.triangleEdges_eq (adj : m.Adjacent) (adj' : m'.Adjacent)
    (triangles : m'.triangles = m.triangles) (index : m'.edgeIndex = m.edgeIndex) :
    m'.triangleEdges = m.triangleEdges := by
  refine Array.ext (by rw [adj'.size, adj.size, triangles]) fun t ht' ht => ?_
  have hlt : t < m.triangles.size := Nat.lt_of_lt_of_eq ht adj.size
  obtain ⟨vs, hvs⟩ : ∃ vs, m.triangles[t]? = some vs := ⟨_, Array.getElem?_eq_getElem hlt⟩
  obtain ⟨es, hes, hside⟩ := adj.side hvs
  rw [← triangles] at hvs
  obtain ⟨es', hes', hside'⟩ := adj'.side hvs
  have heq : ∀ j, es'.get j = es.get j := by
    intro j
    have hj := hside' j
    rw [index, hside j] at hj
    exact (Option.some.inj hj).symm
  rw [Array.getElem?_eq_getElem ht] at hes
  rw [Array.getElem?_eq_getElem ht'] at hes'
  rw [Option.some.inj hes, Option.some.inj hes']
  exact Triple.ext (heq 0) (heq 1) (heq 2)

/-- an update leaves edges and adjacency alone that are those of the triangles -/
theorem Tabled.updateEdges_self (tab : m.Tabled) (adj : m.Adjacent)
    (used : ∀ {e : EdgeId} {x : Edge α}, m.edges[e]? = some x →
      x.isFeature = true ∨ m.trianglesOn x.ends ≠ []) : m.updateEdges = .ok m := by
  obtain ⟨m', hok⟩ := updateEdges_total used tab adj.few
  have hup := updateEdges_spec used tab hok
  have hedges := hup.edges_eq tab adj
  have hindex := tab.edgeIndex_eq hup.tabled hedges
  have htriangles := triangles_of_withoutEdges hup.frame
  have hsides := adj.triangleEdges_eq hup.adjacent htriangles hindex
  have hlists : m'.edgeTriangles = m.edgeTriangles := by
    refine Array.ext (by rw [hup.tabled.size_eq, tab.size_eq, hedges]) fun e he' he => ?_
    have hx := Array.getElem?_eq_getElem (tab.size_eq ▸ he)
    have hpresent := hup.adjacent.present (hup.old hx)
    rw [trianglesOn_of_withoutEdges hup.frame, ← adj.present hx,
      Array.getElem?_eq_getElem he, Array.getElem?_eq_getElem he'] at hpresent
    exact Option.some.inj hpresent
  rw [hok]
  exact congrArg Except.ok (Mesh.ext (vertices_of_withoutEdges hup.frame) htriangles
    (lines_of_withoutEdges hup.frame) hedges hindex hsides hlists
    (featureEdges_of_withoutEdges hup.frame) (featureStars_of_withoutEdges hup.frame)
    (singularities_of_withoutEdges hup.frame))

end

/-! ## edits that keep a mesh coherent -/

theorem Covers.of_edgeIndex {line : Line} (e : m'.edgeIndex = m.edgeIndex) (h : m.Covers line) :
    m'.Covers line := by
  unfold Covers
  rw [e]
  exact h

theorem Coherent.setSingularity [Scalar α] (h : m.Coherent) {v : VertexId} {kind : SingularityKind}
    (hok : m.setSingularity v kind = .ok m') : m'.Coherent := by
  have hsingular := singular_lt_of_setSingularity hok h.singular_lt
  obtain ⟨_, _, rfl⟩ := setSingularity_eq_ok_iff.mp hok
  exact {
    corner_lt := h.corner_lt
    proper := h.proper
    tabled := { h.tabled with }
    adjacent := { h.adjacent with }
    feature := h.feature
    covered := h.covered
    covers := h.covers
    starred := h.starred
    singular_lt := hsingular }

theorem raysAt_of_ends (features : m'.featureEdges = m.featureEdges)
    (ends : ∀ e ∈ m.featureEdges, ∀ v, m'.IsEnd e v ↔ m.IsEnd e v) (v : VertexId) :
    m'.raysAt v = m.raysAt v := by
  unfold raysAt
  rw [features]
  refine List.filter_congr fun e he => ?_
  rw [Bool.eq_iff_iff, touches_iff, touches_iff]
  exact ends e (ExtTreeSet.mem_toList.mp he) v

theorem Starred.of_ends (h : m.Starred) (stars : m'.featureStars = m.featureStars)
    (features : m'.featureEdges = m.featureEdges)
    (ends : ∀ e ∈ m.featureEdges, ∀ v, m'.IsEnd e v ↔ m.IsEnd e v) : m'.Starred := by
  intro v
  rw [stars, raysAt_of_ends features ends, h v]

section
variable [Scalar α]

theorem isEnd_of_outline (h : m'.outline = m.outline) {e : EdgeId} {v : VertexId}
    (hv : m.IsEnd e v) : m'.IsEnd e v := by
  obtain ⟨x, hx, hv⟩ := hv
  obtain ⟨y, hy, hends⟩ := ends_of_outline h.symm hx
  exact ⟨y, hy, hends ▸ hv⟩

theorem Coherent.of_clearNormals (coh : m.Coherent) (h : m'.clearNormals = m.clearNormals) :
    m'.Coherent where
  toSound := coh.toSound.of_clearNormals h
  covered := by
    intro e x hx
    obtain ⟨y, hy, hends, _⟩ := edge_of_clearNormals h hx
    rw [trianglesOn_of_outline (outline_of_clearNormals h), ← hends]
    exact coh.covered hy
  covers := by
    intro line hline
    rw [lines_of_outline (outline_of_clearNormals h)] at hline
    exact (coh.covers line hline).of_edgeIndex (edgeIndex_of_outline (outline_of_clearNormals h))
  starred := coh.starred.of_ends (featureStars_of_clearNormals h) (featureEdges_of_clearNormals h)
    fun _ _ _ => ⟨isEnd_of_outline (outline_of_clearNormals h).symm,
      isEnd_of_outline (outline_of_clearNormals h)⟩
  singular_lt := by
    intro v hv
    rw [singularities_of_outline (outline_of_clearNormals h)] at hv
    rw [size_vertices_of_outline (outline_of_clearNormals h)]
    exact coh.singular_lt v hv

theorem Coherent.updateNormals (h : m.Coherent) : (meshAfter m.updateNormals).Coherent :=
  h.of_clearNormals (editsNormals_updateNormals m)

/-- an update of the edges leaves a coherent mesh alone -/
theorem Coherent.updateEdges (h : m.Coherent) : m.updateEdges = .ok m :=
  h.tabled.updateEdges_self h.adjacent fun hx => .inr (h.covered hx)

end
end Mesh
end DiskCut
