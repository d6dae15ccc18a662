import DiskCut.Proofs.FeatureCut.Split
import DiskCut.Proofs.Mesh.Derive

/-!
# The cut mesh

* `Separated.origin_corner`   `origin` leads from the corners of the cut mesh to the old ones
* `Separated.few`             so no pair of the cut mesh gets a third triangle
* `Cut m c s`                 how the result `c` of a cut comes from the separation `s`
* `cutAlongFeatures_spec`     on a coherent mesh the cut completes, and its result is such
-/

namespace DiskCut
open Std
namespace Mesh
variable {α : Type} {m : Mesh α} {s : Separation} {t u : TriangleId} {v : VertexId}
  {vs ws : Triple VertexId}

/-! ## corners and their origins -/

theorem Separated.origin_cornerIn (h : m.Fitted) (hs : Separated m s) {w : VertexId}
    (hw : m.cornerIn s.triangles t v = some w) : s.origin[w]? = some v := by
  have hcorner := isCorner_of_cornerIn hw
  by_cases hreached : (t, v) ∈ s.reached
  · obtain ⟨w', hw', horigin⟩ := hs.placed hreached
    rw [hw] at hw'
    rw [Option.some.inj hw']
    exact horigin
  · rw [hs.kept hcorner hreached] at hw
    rw [← Option.some.inj hw]
    exact hs.old (h.corner_lt_of_isCorner hcorner)

/-- the corners of the cut mesh come from the corners at the same place -/
theorem Separated.origin_corner (h : m.Fitted) (hs : Separated m s)
    (hvs : m.triangles[t]? = some vs) (hws : s.triangles[t]? = some ws) (j : Fin 3) :
    s.origin[ws.get j]? = some (vs.get j) :=
  hs.origin_cornerIn h (Proper.cornerIn_get h.proper hvs hws j)

theorem Separated.origin_lt (h : m.Fitted) (hs : Separated m s) {i : VertexId}
    (hi : s.origin[i]? = some v) : v < m.vertices.size := by
  by_cases hlt : i < m.vertices.size
  · rw [hs.old hlt] at hi
    exact Option.some.inj hi ▸ hlt
  · obtain ⟨t, ht, _⟩ := hs.copy (Nat.le_of_not_lt hlt) hi
    obtain ⟨w, hw, _⟩ := hs.placed ht
    exact h.corner_lt_of_isCorner (isCorner_of_cornerIn hw)

theorem Separated.exists_corners (hs : Separated m s) (hws : s.triangles[t]? = some ws) :
    ∃ vs, m.triangles[t]? = some vs := by
  have hlt := (Array.getElem?_eq_some_iff.mp hws).1
  rw [hs.size] at hlt
  exact ⟨_, Array.getElem?_eq_getElem hlt⟩

theorem Separated.exists_moved (hs : Separated m s) (hvs : m.triangles[t]? = some vs) :
    ∃ ws, s.triangles[t]? = some ws := by
  have hlt := (Array.getElem?_eq_some_iff.mp hvs).1
  rw [← hs.size] at hlt
  exact ⟨_, Array.getElem?_eq_getElem hlt⟩

theorem Separated.distinct (h : m.Fitted) (hs : Separated m s) (hws : s.triangles[t]? = some ws) :
    ws.Distinct := by
  obtain ⟨vs, hvs⟩ := hs.exists_corners hws
  obtain ⟨hab, hbc, hac⟩ := h.proper hvs
  have horigin := hs.origin_corner h hvs hws
  have apart : ∀ i j, vs.get i ≠ vs.get j → ws.get i ≠ ws.get j := by
    intro i j hne hij
    have hi := horigin i
    rw [hij, horigin j] at hi
    exact hne (Option.some.inj hi).symm
  exact ⟨apart 0 1 hab, apart 1 2 hbc, apart 0 2 hac⟩

/-- triangles on one pair of the cut mesh were on one pair before -/
theorem Separated.keys_eq (h : m.Fitted) (hs : Separated m s) {vs' ws' : Triple VertexId}
    (hvs : m.triangles[t]? = some vs) (hws : s.triangles[t]? = some ws)
    (hvs' : m.triangles[u]? = some vs') (hws' : s.triangles[u]? = some ws') {i j : Fin 3}
    (e : ws.keys.get i = ws'.keys.get j) : vs.keys.get i = vs'.keys.get j := by
  have h₀ := hs.origin_corner h hvs hws i
  have h₁ := hs.origin_corner h hvs hws (i + 1)
  have h₀' := hs.origin_corner h hvs' hws' j
  have h₁' := hs.origin_corner h hvs' hws' (j + 1)
  rw [Triple.get_keys, Triple.get_keys, edgeKey_eq_iff] at e ⊢
  rcases e with ⟨e₀, e₁⟩ | ⟨e₀, e₁⟩
  · rw [e₀, h₀'] at h₀
    rw [e₁, h₁'] at h₁
    exact .inl ⟨(Option.some.inj h₀).symm, (Option.some.inj h₁).symm⟩
  · rw [e₀, h₁'] at h₀
    rw [e₁, h₀'] at h₁
    exact .inr ⟨(Option.some.inj h₀).symm, (Option.some.inj h₁).symm⟩

/-- no pair of the cut mesh has a third triangle -/
theorem Separated.few (h : m.Fitted) (hs : Separated m s) {cut : Mesh α}
    (hcut : cut.triangles = s.triangles) (k : VertexId × VertexId) :
    (cut.trianglesOn k).length ≤ 2 := by
  have proper : cut.Proper := by
    intro t ws hws
    rw [hcut] at hws
    exact hs.distinct h hws
  cases hk : cut.trianglesOn k with
  | nil => exact Nat.zero_le 2
  | cons u us =>
    obtain ⟨ws, hws, i, hi⟩ := mem_trianglesOn.mp (show u ∈ cut.trianglesOn k by
      rw [hk]
      exact List.mem_cons_self)
    rw [hcut] at hws
    obtain ⟨vs, hvs⟩ := hs.exists_corners hws
    have hsub : cut.trianglesOn k ⊆ m.trianglesOn (vs.keys.get i) := by
      intro t ht
      obtain ⟨ws', hws', j, hj⟩ := mem_trianglesOn.mp ht
      rw [hcut] at hws'
      obtain ⟨vs', hvs'⟩ := hs.exists_corners hws'
      exact mem_trianglesOn.mpr ⟨vs', hvs', j,
        hs.keys_eq h hvs' hws' hvs hws (hj.trans hi.symm)⟩
    have hnodup := (trianglesOn_sorted proper (k := k)).imp Nat.ne_of_lt
    have hle := (List.subperm_of_subset hnodup hsub).length_le
    rw [← hk]
    exact Nat.le_trans hle (h.adjacent.few _)

/-- the image of a feature edge is a side of the triangle that it is seen from -/
theorem Separated.trianglesOn_imaged (h : m.Fitted) (hs : Separated m s) {cut : Mesh α}
    (hcut : cut.triangles = s.triangles) {done : List EdgeId} {k : VertexId × VertexId}
    {curve : Option Int} (hk : m.Imaged done s.triangles k curve) : cut.trianglesOn k ≠ [] := by
  obtain ⟨e, _, x, t, hx, ht, hside, _⟩ := hk
  obtain ⟨y, vs, hy, hvs, j, hj⟩ := h.incident_iff.mp ht
  rw [hx] at hy
  obtain rfl := Option.some.inj hy
  obtain ⟨ws, hws⟩ := hs.exists_moved hvs
  rw [← hj, Proper.sideIn_keys h.proper hvs hws j] at hside
  refine List.ne_nil_of_mem ((mem_trianglesOn (t := t)).mpr ⟨ws, ?_, j, Option.some.inj hside⟩)
  rw [hcut]
  exact hws

/-! ## how a result comes about -/

/-- the result `c` of cutting `m`, whose corners are those of the separation `s` -/
structure Cut (m : Mesh α) (c : FeatureCut α) (s : Separation) : Prop where
  separated : Separated m s
  seen : ∀ {e : EdgeId} {t : TriangleId} {v : VertexId}, m.IsFeature e → m.Incident e t →
    m.IsEnd e v → (t, v) ∈ s.reached
  origin : c.origin = s.origin
  triangles : c.mesh.triangles = s.triangles
  coherent : c.mesh.Coherent
  vertex : ∀ {i v : VertexId}, s.origin[i]? = some v → ∃ x y, m.vertices[v]? = some x ∧
    c.mesh.vertices[i]? = some y ∧ y.position = x.position ∧ y.entity = x.entity
  size : c.mesh.vertices.size = s.origin.size
  duplicated : c.duplicated + m.vertices.size = c.mesh.vertices.size
  singularities : c.mesh.singularities = m.singularities
  imaged : ∀ {e : EdgeId} {x : Edge α}, c.mesh.edges[e]? = some x → x.isFeature = true →
    m.Imaged m.featureEdges.toList s.triangles x.ends x.curve
  drawn : ∀ {e : EdgeId} {x : Edge α} {t : TriangleId}, m.IsFeature e → m.edges[e]? = some x →
    m.Incident e t → ∃ k, m.sideIn s.triangles t x.ends = some k ∧
      ∃ (e' : EdgeId) (x' : Edge α), c.mesh.edges[e']? = some x' ∧ x'.ends = k ∧
        x'.isFeature = true
  line : ∀ {i : Nat} {line : Line}, c.mesh.lines[i]? = some line →
    ∃ x, c.mesh.edges[i]? = some x ∧ x.isFeature = true ∧ line = ⟨x.ends, x.curve⟩
  line_lt : ∀ e, e ∈ c.mesh.featureEdges ↔ e < c.mesh.lines.size

/-! ## the stages of a cut -/

section
variable [Scalar α]

/-- every vertex of the cut mesh is a copy of the one that it comes from -/
theorem copiedVertices_spec (h : m.Fitted) (hs : Separated m s) :
    ∃ vertices, m.copiedVertices s.origin = .ok vertices ∧ vertices.size = s.origin.size ∧
      ∀ {i v : VertexId}, s.origin[i]? = some v → ∃ x y, m.vertices[v]? = some x ∧
        vertices[i]? = some y ∧ y.position = x.position ∧ y.entity = x.entity := by
  have total : ∃ ys, (s.origin.toList.mapM fun v => do
      let vertex ← fetch m.vertices v
      return ({ vertex with normal := .zero } : Vertex α)) = .ok ys := by
    refine mapM_total fun v hv => ?_
    obtain ⟨i, hi⟩ := List.mem_iff_getElem?.mp hv
    rw [Array.getElem?_toList] at hi
    rw [fetch_of_lt (hs.origin_lt h hi)]
    exact ⟨_, rfl⟩
  obtain ⟨ys, hys⟩ := total
  obtain ⟨hlen, hget⟩ := List.forall₂_iff_get.mp (mapM_eq_ok_iff.mp hys)
  refine ⟨ys.toArray, ?_, ?_, fun {i v} hi => ?_⟩
  · unfold copiedVertices
    rw [hys]
    rfl
  · rw [List.size_toArray, ← hlen, Array.length_toList]
  · obtain ⟨hlt, hv⟩ := Array.getElem?_eq_some_iff.mp hi
    have hlt' : i < ys.length := by
      rw [← hlen, Array.length_toList]
      exact hlt
    have hcopy := hget i (by rwa [Array.length_toList]) hlt'
    obtain ⟨x, hx, hy⟩ := bind_eq_ok_iff.mp hcopy
    rw [pure_eq_ok_iff] at hy
    rw [fetch_eq_ok_iff, List.get_eq_getElem, Array.getElem_toList, hv] at hx
    refine ⟨x, ys[i], hx, by rw [List.getElem?_toArray, List.getElem?_eq_getElem hlt'], ?_, ?_⟩
    · exact (congrArg Vertex.position hy).symm
    · exact (congrArg Vertex.entity hy).symm

/-- edges and adjacency completed after all feature edges are cut -/
theorem Cutting.updateEdges (h : m.Sound) {bare : Mesh α} {split : Mesh α}
    (hcut : Cutting m bare m.featureEdges.toList (s, split)) {vertices : Array (Vertex α)}
    (size : vertices.size = s.origin.size) :
    ∃ joined, ({ split with vertices := vertices } : Mesh α).updateEdges = .ok joined ∧
      Updated { split with vertices := vertices } joined ∧ joined.Sound ∧
      ∀ {e : EdgeId} {x : Edge α}, joined.edges[e]? = some x → joined.trianglesOn x.ends ≠ [] := by
  have hd := hcut.drawn
  have hs := hcut.separated
  have hfit := h.toFitted
  have htriangles : split.triangles = s.triangles := hd.triangles
  have htab : ({ split with vertices := vertices } : Mesh α).Tabled := { hd.tabled with }
  have used : ∀ {e : EdgeId} {x : Edge α},
      ({ split with vertices := vertices } : Mesh α).edges[e]? = some x → x.isFeature = true ∨
        ({ split with vertices := vertices } : Mesh α).trianglesOn x.ends ≠ [] :=
    fun hx => .inl (hd.edges hx).1
  obtain ⟨joined, hjoin⟩ := updateEdges_total used htab (hs.few hfit htriangles)
  have hup := updateEdges_spec used htab hjoin
  have hcorners : joined.triangles = s.triangles :=
    (triangles_of_withoutEdges hup.frame).trans htriangles
  have hvertices : joined.vertices = vertices := vertices_of_withoutEdges hup.frame
  refine ⟨joined, hjoin, hup, ?_, ?_⟩
  · exact {
      corner_lt := by
        intro t ws hws j
        rw [hcorners] at hws
        obtain ⟨vs, hvs⟩ := hs.exists_corners hws
        rw [hvertices, size]
        exact (Array.getElem?_eq_some_iff.mp (hs.origin_corner hfit hvs hws j)).1
      proper := by
        intro t ws hws
        rw [hcorners] at hws
        exact hs.distinct hfit hws
      tabled := hup.tabled
      adjacent := hup.adjacent
      feature := by
        intro e
        rw [featureEdges_of_withoutEdges hup.frame]
        show e ∈ split.featureEdges ↔ _
        rw [hd.features]
        refine ⟨?_, ?_⟩
        · intro he
          have hx := Array.getElem?_eq_getElem he
          exact ⟨_, hup.old hx, (hd.edges hx).1⟩
        · intro ⟨x, hx, hf⟩
          rcases hup.fresh hx with hold | ⟨a, b, rfl, _⟩
          · exact (Array.getElem?_eq_some_iff.mp hold).1
          · cases hf }
  · intro e x hx
    rcases hup.fresh hx with hold | ⟨a, b, rfl, hne⟩
    · exact hs.trianglesOn_imaged hfit hcorners (hd.edges hold).2
    · rw [trianglesOn_of_withoutEdges hup.frame]
      exact hne

/-- the last stages of a cut, from the mesh with all its edges on -/
theorem Cutting.finish (h : m.Coherent) {bare split joined : Mesh α}
    (hcut : Cutting m bare m.featureEdges.toList (s, split)) {vertices : Array (Vertex α)}
    (singularities : bare.singularities = m.singularities) (size : vertices.size = s.origin.size)
    (hup : Updated { split with vertices := vertices } joined) (hsound : joined.Sound)
    (covered : ∀ {e : EdgeId} {x : Edge α}, joined.edges[e]? = some x →
      joined.trianglesOn x.ends ≠ []) :
    ∃ oriented last, joined.updateNormals = .ok oriented ∧
      oriented.updateFeatureIncidence = .ok last ∧ last.Coherent ∧
      oriented.clearNormals = joined.clearNormals ∧
      ∃ stars, last = { oriented with featureStars := stars } := by
  have hd := hcut.drawn
  obtain ⟨oriented, horient⟩ := updateNormals_total hsound.toFitted.seated
  have hnormal := clearNormals_updateNormals horient
  have hout := outline_of_clearNormals hnormal
  obtain ⟨last, hlast, hcoh, stars, rfl⟩ :=
    (hsound.of_clearNormals hnormal).updateFeatureIncidence (by
      intro e x hx
      obtain ⟨y, hy, hends⟩ := ends_of_outline hout hx
      rw [trianglesOn_of_outline hout, ← hends]
      exact covered hy) (by
      intro line hline
      rw [lines_of_outline hout, lines_of_withoutEdges hup.frame] at hline
      change line ∈ split.lines.toList at hline
      rw [hd.lines, List.mem_map] at hline
      obtain ⟨x, hx, rfl⟩ := hline
      obtain ⟨e, he⟩ := List.mem_iff_getElem?.mp hx
      rw [Array.getElem?_toList] at he
      have hx' := hup.old he
      refine ⟨e, ?_⟩
      rw [edgeIndex_of_outline hout, hup.tabled.edgeKey_ends hx']
      exact hup.tabled.index_of_edge hx') (by
      intro v hv
      rw [singularities_of_outline hout, singularities_of_withoutEdges hup.frame] at hv
      change v ∈ split.singularities at hv
      rw [hd.singularities] at hv
      change v ∈ bare.singularities at hv
      rw [singularities] at hv
      rw [size_vertices_of_outline hout, vertices_of_withoutEdges hup.frame]
      show v < vertices.size
      rw [size]
      exact Nat.lt_of_lt_of_le (h.singular_lt v hv) hcut.separated.le_size)
  exact ⟨oriented, _, horient, hlast, hcoh, hnormal, stars, rfl⟩

/-- the vertices that edges were completed on stay where they are to the end -/
theorem Updated.vertex {split joined oriented : Mesh α} {vertices : Array (Vertex α)}
    (hup : Updated { split with vertices := vertices } joined)
    (hnormal : oriented.clearNormals = joined.clearNormals) {i : VertexId} {y : Vertex α}
    (hy : vertices[i]? = some y) :
    ∃ z, oriented.vertices[i]? = some z ∧ z.position = y.position ∧ z.entity = y.entity := by
  refine vertex_of_outline (outline_of_clearNormals hnormal).symm ?_
  rw [vertices_of_withoutEdges hup.frame]
  exact hy

section
variable {bare split joined oriented : Mesh α} {vertices : Array (Vertex α)}
  (hcut : Cutting m bare m.featureEdges.toList (s, split))
  (hup : Updated { split with vertices := vertices } joined)
  (hnormal : oriented.clearNormals = joined.clearNormals)
include hcut hup hnormal

/-- the edges inserted while cutting keep number, pair and tag to the end -/
theorem Cutting.kept {e : EdgeId} {x : Edge α} (hx : split.edges[e]? = some x) :
    ∃ y, oriented.edges[e]? = some y ∧ y.ends = x.ends ∧ y.isFeature = true ∧
      y.curve = x.curve := by
  obtain ⟨y, hy, hends, hf, hcurve⟩ := edge_of_clearNormals hnormal.symm (hup.old hx)
  exact ⟨y, hy, hends, hf.trans (hcut.drawn.edges hx).1, hcurve⟩

/-- the features at the end are those inserted while cutting -/
theorem Cutting.imaged {e : EdgeId} {x : Edge α} (hx : oriented.edges[e]? = some x)
    (hf : x.isFeature = true) :
    m.Imaged m.featureEdges.toList s.triangles x.ends x.curve := by
  obtain ⟨y, hy, hends, hf', hcurve⟩ := edge_of_clearNormals hnormal hx
  rcases hup.fresh hy with hold | ⟨a, b, rfl, _⟩
  · rw [← hends, ← hcurve]
    exact (hcut.drawn.edges hold).2
  · rw [hf] at hf'
    cases hf'

theorem Cutting.line {i : Nat} {line : Line} (hline : oriented.lines[i]? = some line) :
    ∃ x, oriented.edges[i]? = some x ∧ x.isFeature = true ∧ line = ⟨x.ends, x.curve⟩ := by
  rw [lines_of_outline (outline_of_clearNormals hnormal), lines_of_withoutEdges hup.frame] at hline
  change split.lines[i]? = some line at hline
  rw [← Array.getElem?_toList, hcut.drawn.lines, List.getElem?_map] at hline
  obtain ⟨x, hx, rfl⟩ := Option.map_eq_some_iff.mp hline
  rw [Array.getElem?_toList] at hx
  obtain ⟨y, hy, hends, hf, hcurve⟩ := hcut.kept hup hnormal hx
  exact ⟨y, hy, hf, by rw [hends, hcurve]⟩

theorem Cutting.line_lt (e : EdgeId) : e ∈ oriented.featureEdges ↔ e < oriented.lines.size := by
  have hlen := congrArg List.length hcut.drawn.lines
  rw [List.length_map, Array.length_toList, Array.length_toList] at hlen
  rw [featureEdges_of_clearNormals hnormal, featureEdges_of_withoutEdges hup.frame,
    lines_of_outline (outline_of_clearNormals hnormal), lines_of_withoutEdges hup.frame]
  show e ∈ split.featureEdges ↔ e < split.lines.size
  rw [hcut.drawn.features, hlen]

end

/-- on a coherent mesh the cut along the features completes -/
theorem cutAlongFeatures_spec (h : m.Coherent) :
    ∃ c s, m.cutAlongFeatures = .ok c ∧ Cut m c s := by
  have hfit := h.toFitted
  obtain ⟨copied, hcopy, _, hgiven⟩ := h.copy
  have hsingular : copied.clearTopology.singularities = m.singularities :=
    (singularities_of_given hgiven :)
  have htriangles : copied.clearTopology.triangles = m.triangles := (triangles_of_given hgiven :)
  obtain ⟨⟨s, split⟩, hcutEdges, hcut⟩ :=
    cutEdges_spec h.toSound htriangles (tabled_of_nil rfl rfl rfl) rfl rfl rfl
  obtain ⟨vertices, hvertices, hsize, hvertex⟩ := copiedVertices_spec hfit hcut.separated
  obtain ⟨joined, hjoin, hup, hsound, hcovered⟩ := hcut.updateEdges h.toSound hsize
  obtain ⟨oriented, _, horient, hlast, hcoh, hnormal, stars, rfl⟩ :=
    hcut.finish h hsingular hsize hup hsound hcovered
  have hd := hcut.drawn
  have hout := outline_of_clearNormals hnormal
  have hsizes : oriented.vertices.size = s.origin.size := by
    rw [size_vertices_of_outline hout, vertices_of_withoutEdges hup.frame, ← hsize]
  have hle : m.vertices.size ≤ oriented.vertices.size := by
    rw [hsizes]
    exact hcut.separated.le_size
  have hmem : ∀ {e : EdgeId}, m.IsFeature e → e ∈ m.featureEdges.toList :=
    fun he => ExtTreeSet.mem_toList.mpr ((h.feature _).mpr he)
  refine ⟨⟨{ oriented with featureStars := stars }, s.origin,
    oriented.vertices.size - m.vertices.size⟩, s, ?_, ?_⟩
  · unfold cutAlongFeatures
    simp only [hcopy, hcutEdges, hvertices, hjoin, horient, hlast, less_of_le hle,
      mapError_ok, bind, Except.bind, pure, Except.pure]
  · exact {
      separated := hcut.separated
      seen := fun he ht hv => hcut.seen _ (hmem he) _ _ ht hv
      origin := rfl
      triangles := by
        show oriented.triangles = s.triangles
        rw [triangles_of_outline hout, triangles_of_withoutEdges hup.frame]
        exact hd.triangles
      coherent := hcoh
      vertex := by
        intro i v hi
        obtain ⟨x, y, hx, hy, hposition, hentity⟩ := hvertex hi
        obtain ⟨z, hz, hposition', hentity'⟩ := hup.vertex hnormal hy
        exact ⟨x, z, hx, hz, hposition'.trans hposition, hentity'.trans hentity⟩
      size := hsizes
      duplicated := Nat.sub_add_cancel hle
      singularities := by
        show oriented.singularities = m.singularities
        rw [singularities_of_outline hout, singularities_of_withoutEdges hup.frame]
        exact hd.singularities.trans hsingular
      imaged := hcut.imaged hup hnormal
      drawn := by
        intro e x t he hx ht
        obtain ⟨k, e', hk, he'⟩ := hcut.complete e (hmem he) x t hx ht
        obtain ⟨y, hy, hends⟩ := hd.tabled.edge_of_index he'
        obtain ⟨z, hz, hends', hf, _⟩ := hcut.kept hup hnormal hy
        exact ⟨k, hk, e', z, hz, hends'.trans hends, hf⟩
      line := hcut.line hup hnormal
      line_lt := by
        intro e
        show e ∈ oriented.featureEdges ↔ e < oriented.lines.size
        exact hcut.line_lt hup hnormal e }

end
end Mesh
end DiskCut
