import DiskCut.Proofs.FeatureCut.Cut

/-!
# Cut meshes and their drawings

The feature edges of a cut mesh are inserted one by one before anything else is derived; what they
leave behind is told by the lines.

* `drawLine m line`, `drawLines`   a feature edge for a line, for each line of a list
* `drawn m`                        the lines of a mesh inserted into its given part
* `complete m`                     a mesh of feature edges with everything else derived
* `DrawnOn bare cut`               `cut` is `bare` with the lines of `cut` inserted and corners moved
* `cutAlongFeatures_eq_ok_iff`     the stages of a cut
* `complete_drawn_of_cut`          a cut mesh is the completion of its own drawing

So a cut mesh is determined by its vertices, triangles, lines and singularities.
-/

namespace DiskCut
open Std
namespace Mesh
variable {α : Type} [Scalar α] {m bare cut split : Mesh α} {c : FeatureCut α}

/-! ## drawing lines -/

/-- a feature edge inserted for a line -/
def drawLine (m : Mesh α) (line : Line) : Mesh α :=
  (m.insertFeatureEdge line.ends.1 line.ends.2 line.curve).1

def drawLines (m : Mesh α) (lines : List Line) : Mesh α := lines.foldl drawLine m

/-- the lines of a mesh inserted into its given part -/
def drawn (m : Mesh α) : Mesh α := m.clearTopology.drawLines m.lines.toList

/-- the mesh with other vertices and triangles, nothing derived from them -/
def withGiven (m : Mesh α) (vertices : Array (Vertex α)) (triangles : Array (Triple VertexId)) :
    Mesh α :=
  { m with vertices, triangles }

theorem drawLine_cases (m : Mesh α) (line : Line) :
    (∃ e, m.edgeIndex[edgeKey line.ends.1 line.ends.2]? = some e ∧ m.drawLine line = m) ∨
    (m.edgeIndex[edgeKey line.ends.1 line.ends.2]? = none ∧ m.drawLine line =
      { m.pushEdge (featureEdge line.ends.1 line.ends.2 line.curve) with
        featureEdges := m.featureEdges.insert m.edges.size
        lines := m.lines.push ⟨edgeKey line.ends.1 line.ends.2, line.curve⟩ }) :=
  insertFeatureEdge_cases m line.ends.1 line.ends.2 line.curve

theorem drawLines_append (m : Mesh α) (lines : List Line) (line : Line) :
    m.drawLines (lines ++ [line]) = (m.drawLines lines).drawLine line := by
  unfold drawLines
  rw [List.foldl_append, List.foldl_cons, List.foldl_nil]

/-- what every insertion keeps, drawing keeps -/
theorem drawLines_invariant {P : Mesh α → Prop}
    (keep : ∀ {m : Mesh α} (a b : VertexId) (curve : Option Int), P m →
      P (m.insertFeatureEdge a b curve).1) (lines : List Line) (h : P m) : P (m.drawLines lines) := by
  induction lines generalizing m with
  | nil => exact h
  | cons line lines ih => exact ih (keep line.ends.1 line.ends.2 line.curve h)

/-- drawing does not look at vertices and triangles -/
theorem drawLine_withGiven (m : Mesh α) (line : Line) (vertices : Array (Vertex α))
    (triangles : Array (Triple VertexId)) :
    (m.withGiven vertices triangles).drawLine line
      = (m.drawLine line).withGiven vertices triangles := by
  have hindex : (m.withGiven vertices triangles).edgeIndex = m.edgeIndex := rfl
  unfold drawLine insertFeatureEdge findEdge?
  rw [hindex]
  cases m.edgeIndex[edgeKey line.ends.1 line.ends.2]? <;> rfl

theorem drawLines_withGiven (lines : List Line) (m : Mesh α) (vertices : Array (Vertex α))
    (triangles : Array (Triple VertexId)) :
    (m.withGiven vertices triangles).drawLines lines
      = (m.drawLines lines).withGiven vertices triangles := by
  induction lines generalizing m with
  | nil => rfl
  | cons line lines ih =>
    show ((m.withGiven vertices triangles).drawLine line).drawLines lines = _
    rw [drawLine_withGiven]
    exact ih _

theorem insertFeatureEdge_edgeKey (m : Mesh α) (a b : VertexId) (curve : Option Int) :
    m.drawLine ⟨edgeKey a b, curve⟩ = (m.insertFeatureEdge a b curve).1 := by
  have hkey : edgeKey (edgeKey a b).1 (edgeKey a b).2 = edgeKey a b :=
    edgeKey_of_le (edgeKey_fst_le a b)
  unfold drawLine insertFeatureEdge findEdge? featureEdge
  rw [hkey]

/-- a pair that is an edge already is not inserted again -/
theorem drawLine_of_known {line : Line} {e : EdgeId}
    (he : m.edgeIndex[edgeKey line.ends.1 line.ends.2]? = some e) : m.drawLine line = m := by
  rcases drawLine_cases m line with ⟨_, _, hline⟩ | ⟨hnone, _⟩
  · exact hline
  · rw [he] at hnone
    cases hnone

theorem drawLine_drawLine (m : Mesh α) (line : Line) :
    (m.drawLine line).drawLine line = m.drawLine line := by
  rcases drawLine_cases m line with ⟨e, he, hline⟩ | ⟨_, hline⟩
  · rw [hline, hline]
  · rw [hline]
    exact drawLine_of_known (e := m.edges.size) ExtTreeMap.getElem?_insert_self

/-! ## meshes that are drawn -/

/-- `cut` comes from `bare` by inserting its lines in a row and moving corners -/
def DrawnOn (bare cut : Mesh α) : Prop :=
  cut = (bare.drawLines cut.lines.toList).withGiven cut.vertices cut.triangles

theorem drawnOn_self (lines : bare.lines = #[]) : DrawnOn bare bare := by
  unfold DrawnOn
  rw [lines]
  rfl

theorem DrawnOn.withGiven (h : DrawnOn bare cut) (vertices : Array (Vertex α))
    (triangles : Array (Triple VertexId)) : DrawnOn bare (cut.withGiven vertices triangles) := by
  unfold DrawnOn at h
  have e := congrArg (Mesh.withGiven · vertices triangles) h
  exact e

theorem DrawnOn.insertFeatureEdge (h : DrawnOn bare cut) (a b : VertexId) (curve : Option Int) :
    DrawnOn bare (cut.insertFeatureEdge a b curve).1 := by
  rcases insertFeatureEdge_cases cut a b curve with ⟨_, _, hins⟩ | ⟨_, hins⟩
  · rw [hins]
    exact h
  · have hlines : (cut.insertFeatureEdge a b curve).1.lines.toList
        = cut.lines.toList ++ [⟨edgeKey a b, curve⟩] := by
      rw [hins, Array.toList_push]
    have hvertices : (cut.insertFeatureEdge a b curve).1.vertices = cut.vertices := by rw [hins]; rfl
    have htriangles : (cut.insertFeatureEdge a b curve).1.triangles = cut.triangles := by
      rw [hins]; rfl
    unfold DrawnOn at h ⊢
    rw [hlines, hvertices, htriangles, drawLines_append, ← drawLine_withGiven, ← h,
      insertFeatureEdge_edgeKey]

theorem DrawnOn.splitSide (h : DrawnOn bare cut) (x : Edge α)
    (side : (VertexId × VertexId) × VertexId × VertexId) : DrawnOn bare (splitSide x cut side) := by
  rw [splitSide_eq]
  split
  · exact h.insertFeatureEdge _ _ _
  · exact h

theorem DrawnOn.splitAt (h : DrawnOn bare cut) {x : Edge α} {t : TriangleId} {cut' : Mesh α}
    (hok : m.splitAt x cut t = .ok cut') : DrawnOn bare cut' := by
  unfold Mesh.splitAt at hok
  simp only [bind_eq_ok_iff, pure_eq_ok_iff] at hok
  obtain ⟨before, _, after, _, rfl⟩ := hok
  exact List.foldlRecOn _ _ h fun cut hcut side _ => hcut.splitSide x side

theorem DrawnOn.splitEdge (h : DrawnOn bare cut) {e : EdgeId} {cut' : Mesh α}
    (hok : m.splitEdge cut e = .ok cut') : DrawnOn bare cut' := by
  unfold Mesh.splitEdge at hok
  simp only [bind_eq_ok_iff] at hok
  obtain ⟨x, _, ts, _, hfold⟩ := hok
  exact foldlM_invariant (fun _ _ _ _ hs hstep => DrawnOn.splitAt hs hstep) h hfold

theorem DrawnOn.cutEdge {state next : Separation × Mesh α} (h : DrawnOn bare state.2) {e : EdgeId}
    (hok : m.cutEdge state e = .ok next) : DrawnOn bare next.2 := by
  unfold Mesh.cutEdge at hok
  simp only [bind_eq_ok_iff, pure_eq_ok_iff] at hok
  obtain ⟨fans, _, cut', hcut', rfl⟩ := hok
  exact (h.withGiven state.2.vertices fans.triangles).splitEdge hcut'

theorem drawnOn_of_cutEdges (lines : bare.lines = #[]) {state : Separation × Mesh α}
    (hok : m.cutEdges bare = .ok state) : DrawnOn bare state.2 :=
  foldlM_invariant (P := fun state => DrawnOn bare state.2)
    (fun _ _ _ _ hs hstep => DrawnOn.cutEdge hs hstep) (drawnOn_self lines) hok

/-! ## the stages of a cut -/

/-- everything else derived for a mesh of feature edges -/
def complete (m : Mesh α) : Except Fault (Mesh α) := do
  let joined ← m.updateEdges.mapError (·.fault)
  let oriented ← joined.updateNormals.mapError (·.fault)
  oriented.updateFeatureIncidence

theorem complete_eq_ok_iff {m' : Mesh α} : m.complete = .ok m' ↔ ∃ joined oriented,
    m.updateEdges = .ok joined ∧ joined.updateNormals = .ok oriented ∧
      oriented.updateFeatureIncidence = .ok m' := by
  unfold complete
  simp only [bind_eq_ok_iff, mapError_eq_ok_iff]
  grind

/-- a cut runs through its stages one after the other -/
theorem cutAlongFeatures_eq_ok_iff : m.cutAlongFeatures = .ok c ↔
    ∃ copied fans split vertices, m.copy = .ok copied ∧
      m.cutEdges copied.clearTopology = .ok (fans, split) ∧
      m.copiedVertices fans.origin = .ok vertices ∧
      (split.withGiven vertices split.triangles).complete = .ok c.mesh ∧
      c.origin = fans.origin ∧ less c.mesh.vertices.size m.vertices.size = .ok c.duplicated := by
  unfold cutAlongFeatures
  simp only [bind_eq_ok_iff, pure_eq_ok_iff, complete_eq_ok_iff, mapError_eq_ok_iff]
  refine ⟨?_, ?_⟩
  · intro ⟨copied, hcopy, ⟨fans, split⟩, hsplit, vertices, hvertices, joined, hjoined, oriented,
      horiented, last, hlast, d, hd, hc⟩
    subst hc
    exact ⟨copied, fans, split, vertices, hcopy, hsplit, hvertices,
      ⟨joined, oriented, hjoined, horiented, hlast⟩, rfl, hd⟩
  · intro ⟨copied, fans, split, vertices, hcopy, hsplit, hvertices,
      ⟨joined, oriented, hjoined, horiented, hlast⟩, horigin, hd⟩
    refine ⟨copied, hcopy, ⟨fans, split⟩, hsplit, vertices, hvertices, joined, hjoined, oriented,
      horiented, c.mesh, hlast, c.duplicated, hd, ?_⟩
    rw [← horigin]

/-- a cut mesh is the completion of lines drawn where nothing was derived -/
theorem exists_drawn_of_cut (hok : m.cutAlongFeatures = .ok c) :
    ∃ bare split : Mesh α, DrawnOn bare.clearTopology split ∧ split.complete = .ok c.mesh := by
  obtain ⟨copied, fans, split, vertices, _, hsplit, _, hlast, _⟩ :=
    cutAlongFeatures_eq_ok_iff.mp hok
  have hdrawn : DrawnOn copied.clearTopology split := drawnOn_of_cutEdges rfl hsplit
  exact ⟨copied, _, hdrawn.withGiven vertices split.triangles, hlast⟩

/-! ## cut meshes are drawn -/

/-- copied vertices have lost their normals -/
theorem normal_of_copiedVertices {origin : Array VertexId}
    {vertices : Array (Vertex α)} (h : m.copiedVertices origin = .ok vertices) :
    (vertices.map fun v => ({ v with normal := .zero } : Vertex α)) = vertices := by
  unfold copiedVertices at h
  obtain ⟨ys, hys, h⟩ := bind_eq_ok_iff.mp h
  rw [pure_eq_ok_iff] at h
  have hzero : ∀ y ∈ ys, ({ y with normal := .zero } : Vertex α) = y := by
    intro y hy
    obtain ⟨i, hi⟩ := List.mem_iff_getElem?.mp hy
    obtain ⟨hlen, hget⟩ := List.forall₂_iff_get.mp (mapM_eq_ok_iff.mp hys)
    obtain ⟨hlt, rfl⟩ := List.getElem?_eq_some_iff.mp hi
    obtain ⟨x, _, hx⟩ := bind_eq_ok_iff.mp (hget i (by omega) hlt)
    rw [pure_eq_ok_iff, List.get_eq_getElem] at hx
    rw [← hx]
  rw [← h, List.map_toArray, List.map_congr_left hzero, List.map_id']

/-- what the stages after the feature edges leave alone -/
theorem given_of_stages {joined oriented : Mesh α} (hup : Updated bare joined)
    (hnormal : oriented.clearNormals = joined.clearNormals) :
    oriented.lines = bare.lines ∧ oriented.triangles = bare.triangles ∧
      oriented.singularities = bare.singularities ∧
      (oriented.vertices.map fun v => ({ v with normal := .zero } : Vertex α)) =
        bare.vertices.map fun v => { v with normal := .zero } := by
  have hout := outline_of_clearNormals hnormal
  have hvertices : (oriented.vertices.map fun v => ({ v with normal := .zero } : Vertex α)) =
      joined.vertices.map fun v => { v with normal := .zero } :=
    (congrArg Mesh.vertices hnormal :)
  refine ⟨?_, ?_, ?_, ?_⟩
  · exact (lines_of_outline hout).trans (lines_of_withoutEdges hup.frame)
  · exact (triangles_of_outline hout).trans (triangles_of_withoutEdges hup.frame)
  · exact (singularities_of_outline hout).trans (singularities_of_withoutEdges hup.frame)
  · rw [hvertices, vertices_of_withoutEdges hup.frame]

/-- a cut mesh is the completion of its own drawing -/
theorem complete_drawn_of_cut (h : m.Coherent) (hok : m.cutAlongFeatures = .ok c) :
    c.mesh.drawn.complete = .ok c.mesh := by
  obtain ⟨copied, fans, split, vertices, hcopy, hsplit, hvertices, hlast, _⟩ :=
    cutAlongFeatures_eq_ok_iff.mp hok
  obtain ⟨copied', hcopy', _, hgiven⟩ := h.copy
  obtain rfl := Except.ok.inj (hcopy.symm.trans hcopy')
  have hsingular : copied.clearTopology.singularities = m.singularities :=
    (singularities_of_given hgiven :)
  have htriangles : copied.clearTopology.triangles = m.triangles := (triangles_of_given hgiven :)
  obtain ⟨state, hsplit', hcut⟩ :=
    cutEdges_spec h.toSound htriangles (tabled_of_nil rfl rfl rfl) rfl rfl rfl
  obtain rfl := Except.ok.inj (hsplit.symm.trans hsplit')
  obtain ⟨vertices', hvertices', hsize, _⟩ := copiedVertices_spec h.toFitted hcut.separated
  obtain rfl := Except.ok.inj (hvertices.symm.trans hvertices')
  obtain ⟨joined, hjoin, hup, hsound, hcovered⟩ := hcut.updateEdges h.toSound hsize
  obtain ⟨oriented, last, horient, hfinal, _, hnormal, stars, rfl⟩ :=
    hcut.finish h hsingular hsize hup hsound hcovered
  have hmesh : c.mesh = { oriented with featureStars := stars } :=
    Except.ok.inj (hlast.symm.trans
      (complete_eq_ok_iff.mpr ⟨joined, oriented, hjoin, horient, hfinal⟩))
  obtain ⟨hlines, hcorners, hsingularities, hcleared⟩ := given_of_stages hup hnormal
  -- the drawing has the lines of the cut mesh on its given part, as the mesh of feature edges had
  have hbase : c.mesh.clearTopology
      = copied.clearTopology.withGiven vertices split.triangles := by
    have hsame := hsingularities.trans hcut.drawn.singularities
    rw [hmesh]
    unfold clearTopology withGiven at *
    rw [hcleared, hcorners, hsame, normal_of_copiedVertices hvertices]
  have hdrawn : DrawnOn copied.clearTopology split := drawnOn_of_cutEdges rfl hsplit
  have hlines' : c.mesh.lines = split.lines := hmesh ▸ hlines
  have hsame : c.mesh.drawn = split.withGiven vertices split.triangles := by
    unfold drawn
    rw [hlines', hbase, drawLines_withGiven]
    exact (congrArg (Mesh.withGiven · vertices split.triangles) hdrawn).symm
  rw [hsame, hlast]

end Mesh
end DiskCut
