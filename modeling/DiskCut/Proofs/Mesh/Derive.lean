import DiskCut.Proofs.Mesh.Coherent

/-!
# Deriving a mesh afresh

* `given m`                 the given part of a mesh, without normals
* `Rebuilt m m'`            `m'` is the given part of `m` with the adjacency of its triangles, its edges
                            numbered as the sides first occur and marked by the last line on each
* `deriveTopology_outcome`  so it is after a derivation, unless that stops on the third triangle of a
                            pair or on a line that is no side
* `Derived m m'`            the same of proper triangles, which give a coherent mesh
* `deriveTopology_total`    a derivation completes when no pair has three triangles and every line is
                            a side
* `Coherent.copy`           so a coherent mesh has a copy, which is coherent
-/

namespace DiskCut
open Std
namespace Mesh
variable {α : Type} [Scalar α] {m m' : Mesh α}

/-! ## the given part -/

/-- vertices without normals, triangles, lines and singularities; nothing derived -/
def given (m : Mesh α) : Mesh α := { m.clearTopology with lines := m.lines }

theorem given_of_outline (h : m'.outline = m.outline) : m'.given = m.given := by
  have hv : (m'.vertices.map fun v => ({ v with normal := .zero } : Vertex α))
      = m.vertices.map fun v => { v with normal := .zero } := (congrArg vertices h :)
  unfold given clearTopology
  rw [hv, triangles_of_outline h, lines_of_outline h, singularities_of_outline h]

theorem given_of_withoutEdges (h : m'.withoutEdges = m.withoutEdges) : m'.given = m.given := by
  unfold given clearTopology
  rw [vertices_of_withoutEdges h, triangles_of_withoutEdges h, lines_of_withoutEdges h,
    singularities_of_withoutEdges h]

theorem given_given (m : Mesh α) : m.given.given = m.given := by
  have hv : (m.given.vertices.map fun v => ({ v with normal := .zero } : Vertex α))
      = m.vertices.map fun v => { v with normal := .zero } := map_map_of_eq _ fun _ => rfl
  unfold given clearTopology at *
  simp only at hv ⊢
  rw [hv]

section
variable (h : m'.given = m.given)
include h

theorem triangles_of_given : m'.triangles = m.triangles := (congrArg triangles h :)
theorem lines_of_given : m'.lines = m.lines := (congrArg lines h :)
theorem singularities_of_given : m'.singularities = m.singularities :=
  (congrArg singularities h :)

theorem size_vertices_of_given : m'.vertices.size = m.vertices.size := by
  have e := congrArg (fun m => m.vertices.size) h
  simpa [given, clearTopology] using e

theorem trianglesOn_of_given (k : VertexId × VertexId) : m'.trianglesOn k = m.trianglesOn k := by
  unfold trianglesOn sideList numberedTriangles
  rw [triangles_of_given h]

theorem WellPosed.of_given (posed : m.WellPosed) : m'.WellPosed where
  corner_lt := by
    rw [triangles_of_given h, size_vertices_of_given h]
    exact posed.corner_lt
  proper := by
    intro t vs hvs
    rw [triangles_of_given h] at hvs
    exact posed.proper hvs
  singular_lt := by
    rw [singularities_of_given h, size_vertices_of_given h]
    exact posed.singular_lt

end

/-! ## the stages of a derivation -/

omit [Scalar α] in
theorem tabled_of_nil (edges : m.edges = #[]) (index : m.edgeIndex = ∅)
    (lists : m.edgeTriangles = #[]) : m.Tabled where
  index_of_edge := by
    intro e x hx
    rw [edges] at hx
    cases hx
  edge_of_index := by
    intro k e hk
    rw [index, ExtTreeMap.getElem?_empty] at hk
    cases hk
  ends_le := by
    intro e x hx
    rw [edges] at hx
    cases hx
  size_eq := by
    rw [edges, lists]
    rfl

theorem tabled_given (m : Mesh α) : m.given.Tabled := tabled_of_nil rfl rfl rfl

theorem used_given {e : EdgeId} {x : Edge α} (hx : m.given.edges[e]? = some x) :
    x.isFeature = true ∨ m.given.trianglesOn x.ends ≠ [] := by
  cases hx

/-- an update of the edges of the given part alone leaves exactly the sides, none of them a feature -/
structure Bare (m m' : Mesh α) : Prop where
  tabled : m'.Tabled
  adjacent : m'.Adjacent
  feature : ∀ e, e ∈ m'.featureEdges ↔ m'.IsFeature e
  given_eq : m'.given = m.given
  pairs_eq : m'.pairs = (m.sideList.map Prod.fst).eraseDups
  unmarked : ∀ {e : EdgeId} {x : Edge α}, m'.edges[e]? = some x →
    x.isFeature = false ∧ x.curve = none

theorem bare_of_updated (hup : Updated m.given m') : Bare m m' where
  tabled := hup.tabled
  adjacent := hup.adjacent
  feature := by
    intro e
    rw [featureEdges_of_withoutEdges hup.frame]
    refine ⟨?_, ?_⟩
    · intro he
      exact absurd he ExtTreeSet.not_mem_empty
    · intro ⟨x, hx, hf⟩
      rcases hup.fresh hx with hold | ⟨a, b, rfl, _⟩
      · cases hold
      · cases hf
  given_eq := (given_of_withoutEdges hup.frame).trans (given_given m)
  pairs_eq := hup.pairs_eq
  unmarked := by
    intro e x hx
    rcases hup.fresh hx with hold | ⟨a, b, rfl, _⟩
    · cases hold
    · exact ⟨rfl, rfl⟩

/-- just the sides are in the table by now -/
theorem Bare.covers_iff {joined : Mesh α} (h : Bare m joined) (line : Line) :
    joined.Covers line ↔ m.trianglesOn (edgeKey line.ends.1 line.ends.2) ≠ [] := by
  rw [Covers, ← h.tabled.mem_pairs, h.pairs_eq, List.mem_eraseDups, trianglesOn, owners_ne_nil]

omit [Scalar α] in
/-- feature incidence brought up to date on a mesh whose edges are sides and whose lines are edges -/
theorem Sound.updateFeatureIncidence (h : m.Sound)
    (covered : ∀ {e : EdgeId} {x : Edge α}, m.edges[e]? = some x → m.trianglesOn x.ends ≠ [])
    (covers : ∀ line ∈ m.lines.toList, m.Covers line)
    (singular_lt : ∀ v ∈ m.singularities, v < m.vertices.size) :
    ∃ m', m.updateFeatureIncidence = .ok m' ∧ m'.Coherent ∧
      ∃ stars, m' = { m with featureStars := stars } := by
  have proper : ∀ e ∈ m.featureEdges, ∃ x, m.edges[e]? = some x ∧ x.ends.1 ≠ x.ends.2 := by
    intro e he
    obtain ⟨x, hx, _⟩ := (h.feature e).mp he
    exact ⟨x, hx, h.toFitted.ends_ne hx (covered hx)⟩
  obtain ⟨stars, hok, hstars⟩ := updateFeatureIncidence_spec proper
  refine ⟨_, hok, ?_, stars, rfl⟩
  exact {
    corner_lt := h.corner_lt
    proper := h.proper
    tabled := { h.tabled with }
    adjacent := { h.adjacent with }
    feature := h.feature
    covered := covered
    covers := covers
    starred := hstars
    singular_lt := singular_lt }

/-! ## the whole derivation -/

/-- `m'` is the given part of `m` with everything derived afresh; triangles need not be proper -/
structure Rebuilt (m m' : Mesh α) : Prop where
  tabled : m'.Tabled
  adjacent : m'.Adjacent
  feature : ∀ e, e ∈ m'.featureEdges ↔ m'.IsFeature e
  covers : ∀ line ∈ m'.lines.toList, m'.Covers line
  inSync : m'.InSync
  given_eq : m'.given = m.given
  /-- edges are numbered as the sides first occur -/
  pairs_eq : m'.pairs = (m.sideList.map Prod.fst).eraseDups
  /-- an edge is marked by the last line on it -/
  marked : ∀ {e : EdgeId} {x : Edge α}, m'.edges[e]? = some x →
    ∃ y : Edge α, y.isFeature = false ∧ y.curve = none ∧ x = markedBy m.lines.toList y

theorem Rebuilt.few (h : Rebuilt m m') (k : VertexId × VertexId) :
    (m.trianglesOn k).length ≤ 2 := by
  rw [← trianglesOn_of_given h.given_eq]
  exact h.adjacent.few k

section
variable {joined oriented marked : Mesh α} (h : Bare m joined)
  (horient : joined.updateNormals = .ok oriented)
include h horient

/-- the normals do not matter to the marks -/
theorem Bare.marking (hmark : oriented.markFeatureLines = .ok marked) :
    Marking oriented oriented.lines.toList marked := by
  have hnormal := clearNormals_updateNormals horient
  exact markFeatureLines_spec (h.tabled.of_outline (outline_of_clearNormals hnormal))
    (feature_of_clearNormals hnormal h.feature) hmark

/-- marking stops on the first line that is no side -/
theorem Bare.marking_stopped {stopped : Interrupted α}
    (hstop : oriented.markFeatureLines = .error stopped) :
    ∃ before line after, m.lines.toList = before ++ line :: after ∧
      (∀ l ∈ before, m.trianglesOn (edgeKey l.ends.1 l.ends.2) ≠ []) ∧
      m.trianglesOn (edgeKey line.ends.1 line.ends.2) = [] ∧
      stopped.fault = .mesh (.featureEdgeNotFound line.ends.1 line.ends.2) := by
  have hnormal := clearNormals_updateNormals horient
  have hout := outline_of_clearNormals hnormal
  obtain ⟨before, line, after, hsplit, hcov, hno, hfault⟩ := markFeatureLines_stopped
    (h.tabled.of_outline hout) (feature_of_clearNormals hnormal h.feature) hstop
  have covers : ∀ l, oriented.Covers l ↔ m.trianglesOn (edgeKey l.ends.1 l.ends.2) ≠ [] := by
    intro l
    rw [← h.covers_iff, Covers, Covers, edgeIndex_of_outline hout]
  rw [lines_of_outline hout, lines_of_given h.given_eq] at hsplit
  exact ⟨before, line, after, hsplit, fun l hl => (covers l).mp (hcov l hl),
    not_not.mp (mt (covers line).mpr hno), hfault⟩

/-- a mesh with all sides and all lines marked, from its feature incidence on -/
theorem Bare.rebuilt (hmark : oriented.markFeatureLines = .ok marked) :
    ∃ m', marked.updateFeatureIncidence = .ok m' ∧ Rebuilt m m' := by
  have hmarking := h.marking horient hmark
  have hnormal := clearNormals_updateNormals horient
  have hall : marked.outline = joined.outline :=
    hmarking.outline.trans (outline_of_clearNormals hnormal)
  obtain ⟨stars, hok, hsync⟩ := updateFeatureIncidence_total fun e he =>
    ((hmarking.feature e).mp he).lt_size
  have hadj := h.adjacent.of_outline hall
  refine ⟨_, hok, {
    tabled := { hmarking.tabled with }
    adjacent := { hadj with }
    feature := hmarking.feature
    covers := ?_
    inSync := hsync
    given_eq := (given_of_outline hall).trans h.given_eq
    pairs_eq := (pairs_of_outline hall).trans h.pairs_eq
    marked := ?_ }⟩
  · intro line hline
    change line ∈ marked.lines.toList at hline
    rw [lines_of_outline hmarking.outline] at hline
    obtain ⟨e, he⟩ := hmarking.covers line hline
    exact ⟨e, (congrArg (·[_]?) (edgeIndex_of_outline hmarking.outline)).trans he⟩
  · intro e x hx
    have hlines : oriented.lines = m.lines :=
      (lines_of_outline (outline_of_clearNormals hnormal)).trans (lines_of_given h.given_eq)
    -- an edge is what it was before its mark, and that differs from a plain side in its normal
    have hlt := (Array.getElem?_eq_some_iff.mp hx).1
    change e < marked.edges.size at hlt
    rw [size_edges_of_outline hmarking.outline] at hlt
    have hy := Array.getElem?_eq_getElem hlt
    obtain ⟨z, hz, _, hfeature, hcurve⟩ := edge_of_clearNormals hnormal hy
    obtain ⟨hplain, hnone⟩ := h.unmarked hz
    have hx' := hmarking.edges hy
    change marked.edges[e]? = some x at hx
    rw [hx, hlines] at hx'
    exact ⟨_, hfeature ▸ hplain, hcurve ▸ hnone, Option.some.inj hx'⟩

end

/-- a derivation completes, or stops on the third triangle of a pair, or else on the first line that
is no side -/
theorem deriveTopology_outcome (corner_lt : ∀ {t : TriangleId} {vs}, m.triangles[t]? = some vs →
      ∀ j, vs.get j < m.vertices.size) :
    (∃ m', m.deriveTopology = .ok m' ∧ Rebuilt m m') ∨
    (∃ stopped before k t after, m.deriveTopology = .error stopped ∧
      m.sideList = before ++ (k, t) :: after ∧ (owners before k).length = 2 ∧
      (∀ k', (owners before k').length ≤ 2) ∧
      stopped.fault = .mesh (.nonManifoldEdge k.1 k.2)) ∨
    (∃ stopped before line after, m.deriveTopology = .error stopped ∧
      (∀ k, (m.trianglesOn k).length ≤ 2) ∧ m.lines.toList = before ++ line :: after ∧
      (∀ l ∈ before, m.trianglesOn (edgeKey l.ends.1 l.ends.2) ≠ []) ∧
      m.trianglesOn (edgeKey line.ends.1 line.ends.2) = [] ∧
      stopped.fault = .mesh (.featureEdgeNotFound line.ends.1 line.ends.2)) := by
  unfold deriveTopology
  cases hjoin : m.given.updateEdges with
  | error stopped =>
    obtain ⟨before, k, t, after, hside⟩ := updateEdges_stopped used_given (tabled_given m) hjoin
    exact .inr (.inl ⟨stopped, before, k, t, after, bind_eq_error_iff.mpr (.inl hjoin), hside⟩)
  | ok joined =>
    have hbare := bare_of_updated (updateEdges_spec used_given (tabled_given m) hjoin)
    have hseated : joined.Seated := by
      refine ⟨?_, hbare.tabled, hbare.adjacent⟩
      rw [triangles_of_given hbare.given_eq, size_vertices_of_given hbare.given_eq]
      exact corner_lt
    obtain ⟨oriented, horient⟩ := updateNormals_total hseated
    cases hmark : oriented.markFeatureLines with
    | error stopped =>
      obtain ⟨before, line, after, hline⟩ := hbare.marking_stopped horient hmark
      refine .inr (.inr ⟨stopped, before, line, after, ?_, fun k => ?_, hline⟩)
      · exact bind_eq_error_iff.mpr (.inr ⟨joined, hjoin, bind_eq_error_iff.mpr
          (.inr ⟨oriented, horient, bind_eq_error_iff.mpr (.inl hmark)⟩)⟩)
      · rw [← trianglesOn_of_given hbare.given_eq]
        exact hbare.adjacent.few k
    | ok marked =>
      obtain ⟨last, hlast, hrebuilt⟩ := hbare.rebuilt horient hmark
      exact .inl ⟨last, bind_eq_ok_iff.mpr ⟨joined, hjoin, bind_eq_ok_iff.mpr ⟨oriented, horient,
        bind_eq_ok_iff.mpr ⟨marked, hmark, leaving_eq_ok_iff.mpr hlast⟩⟩⟩, hrebuilt⟩

theorem rebuilt_of_deriveTopology (corner_lt : ∀ {t : TriangleId} {vs},
      m.triangles[t]? = some vs → ∀ j, vs.get j < m.vertices.size)
    (hok : m.deriveTopology = .ok m') : Rebuilt m m' := by
  rcases deriveTopology_outcome corner_lt with ⟨last, hlast, hrebuilt⟩ |
    ⟨_, _, _, _, _, hstop, _⟩ | ⟨_, _, _, _, hstop, _⟩
  · rw [hok] at hlast
    exact Except.ok.inj hlast ▸ hrebuilt
  · rw [hok] at hstop
    cases hstop
  · rw [hok] at hstop
    cases hstop

/-! ## proper triangles -/

/-- `m'` is the given part of `m` with everything derived afresh -/
structure Derived (m m' : Mesh α) : Prop extends m'.Coherent where
  given_eq : m'.given = m.given
  /-- edges are numbered as the sides first occur -/
  pairs_eq : m'.pairs = (m.sideList.map Prod.fst).eraseDups
  /-- an edge is marked by the last line on it -/
  marked : ∀ {e : EdgeId} {x : Edge α}, m'.edges[e]? = some x →
    ∃ y : Edge α, y.isFeature = false ∧ y.curve = none ∧ x = markedBy m.lines.toList y

theorem Rebuilt.derived (h : Rebuilt m m') (posed : m.WellPosed) : Derived m m' := by
  have hposed := posed.of_given h.given_eq
  have hfit : m'.Fitted := ⟨hposed.corner_lt, hposed.proper, h.tabled, h.adjacent⟩
  have covered : ∀ {e : EdgeId} {x : Edge α}, m'.edges[e]? = some x →
      m'.trianglesOn x.ends ≠ [] := by
    intro e x hx
    have hpair : x.ends ∈ m'.pairs :=
      List.mem_of_getElem? (getElem?_pairs.mpr ⟨x, hx, rfl⟩)
    rw [h.pairs_eq, List.mem_eraseDups] at hpair
    rw [trianglesOn_of_given h.given_eq]
    exact owners_ne_nil.mpr hpair
  have proper : ∀ e ∈ m'.featureEdges, ∃ x, m'.edges[e]? = some x ∧ x.ends.1 ≠ x.ends.2 := by
    intro e he
    obtain ⟨x, hx, _⟩ := (h.feature e).mp he
    exact ⟨x, hx, hfit.ends_ne hx (covered hx)⟩
  exact {
    toFitted := hfit
    feature := h.feature
    covered := covered
    covers := h.covers
    starred := h.inSync.starred proper
    singular_lt := hposed.singular_lt
    given_eq := h.given_eq
    pairs_eq := h.pairs_eq
    marked := h.marked }

/-- a completed derivation gives a coherent mesh on the same given part -/
theorem deriveTopology_spec (h : m.WellPosed) (hok : m.deriveTopology = .ok m') : Derived m m' :=
  (rebuilt_of_deriveTopology h.corner_lt hok).derived h

/-- a derivation completes when no pair has three triangles and every line is a side -/
theorem deriveTopology_total (h : m.WellPosed) (few : ∀ k, (m.trianglesOn k).length ≤ 2)
    (lines : ∀ line ∈ m.lines.toList, m.trianglesOn (edgeKey line.ends.1 line.ends.2) ≠ []) :
    ∃ m', m.deriveTopology = .ok m' := by
  rcases deriveTopology_outcome h.corner_lt with ⟨last, hlast, _⟩ |
    ⟨_, before, k, t, after, _, hside, hfull, _⟩ | ⟨_, before, line, after, _, _, hsplit, _, hno, _⟩
  · exact ⟨last, hlast⟩
  · have hle := few k
    rw [trianglesOn, hside, length_owners_next] at hle
    omega
  · refine absurd hno (lines line ?_)
    rw [hsplit]
    exact List.mem_append_right _ List.mem_cons_self

/-! ## copies -/

omit [Scalar α] in
theorem Coherent.line_side (h : m.Coherent) {line : Line} (hline : line ∈ m.lines.toList) :
    m.trianglesOn (edgeKey line.ends.1 line.ends.2) ≠ [] := by
  obtain ⟨e, he⟩ := h.covers line hline
  obtain ⟨x, hx, hends⟩ := h.tabled.edge_of_index he
  exact hends ▸ h.covered hx

/-- a coherent mesh has a copy on the same given part, which is coherent as well -/
theorem Coherent.copy (h : m.Coherent) :
    ∃ m', m.copy = .ok m' ∧ m'.Coherent ∧ m'.given = m.given := by
  have hposed := h.wellPosed
  obtain ⟨m', hok⟩ := deriveTopology_total (m := { (empty : Mesh α) with
      vertices := m.vertices, triangles := m.triangles, lines := m.lines,
      singularities := m.singularities })
    ⟨hposed.corner_lt, hposed.proper, hposed.singular_lt⟩ h.adjacent.few
    fun line hline => h.line_side hline
  have hderived := deriveTopology_spec
    ⟨hposed.corner_lt, hposed.proper, hposed.singular_lt⟩ hok
  refine ⟨m', ?_, hderived.toCoherent, hderived.given_eq⟩
  unfold Mesh.copy
  exact mapError_eq_ok_iff.mpr hok

end Mesh
end DiskCut
