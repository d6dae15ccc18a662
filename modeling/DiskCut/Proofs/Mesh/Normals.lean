import DiskCut.Proofs.Mesh.Sound

/-!
# Normals and the rest of a mesh

Two meshes that differ in normals only are equal after `clearNormals`; two that differ in feature
marks as well are equal after `outline`.

* `Seated.of_outline`, `Fitted.of_outline`, `Sound.of_clearNormals`   what depends on the rest of a
                                 mesh only
* `editsNormals_updateNormals`   an update of the normals, completed or not, changes normals only
* `updateNormals_total`          on a seated mesh it completes
-/

namespace DiskCut
open Std

theorem map_modify_of_eq {β γ : Type} (xs : Array β) (i : Nat) {f : β → β} {g : β → γ}
    (h : ∀ x, g (f x) = g x) : (xs.modify i f).map g = xs.map g := by
  apply Array.ext_getElem?
  intro j
  rw [Array.getElem?_map, Array.getElem?_map, Array.getElem?_modify]
  split
  · cases xs[j]? with
    | none => rfl
    | some x => exact congrArg some (h x)
  · rfl

theorem map_map_of_eq {β γ : Type} (xs : Array β) {f : β → β} {g : β → γ}
    (h : ∀ x, g (f x) = g x) : (xs.map f).map g = xs.map g := by
  rw [Array.map_map]
  exact congrArg (fun k => xs.map k) (funext h)

namespace Mesh
variable {α : Type} [Scalar α] {m m' : Mesh α}

/-! ## meshes that differ in normals -/

/-- the part of a mesh without vertices and edges, which alone hold normals -/
def holdsNoNormals (m : Mesh α) : Mesh α := { m with vertices := #[], edges := #[] }

theorem clearNormals_congr
    (vertices : (m'.vertices.map fun v => ({ v with normal := .zero } : Vertex α))
      = m.vertices.map fun v => { v with normal := .zero })
    (edges : (m'.edges.map fun x => ({ x with normal := .zero } : Edge α))
      = m.edges.map fun x => { x with normal := .zero })
    (rest : m'.holdsNoNormals = m.holdsNoNormals) : m'.clearNormals = m.clearNormals := by
  have e : m'.clearNormals = { m'.holdsNoNormals with
      vertices := m.clearNormals.vertices, edges := m.clearNormals.edges } := by
    unfold clearNormals
    rw [vertices, edges]
    rfl
  rw [e, rest]
  rfl

/-- the mesh without normals and feature marks -/
def outline (m : Mesh α) : Mesh α :=
  { m with
    vertices := m.vertices.map fun v => { v with normal := .zero }
    edges := m.edges.map fun x => ⟨x.ends, .zero, false, none⟩
    featureEdges := ∅
    featureStars := ∅ }

theorem outline_clearNormals (m : Mesh α) : m.clearNormals.outline = m.outline := by
  unfold outline clearNormals
  simp only [Mesh.mk.injEq, true_and, and_true]
  exact ⟨map_map_of_eq _ fun _ => rfl, map_map_of_eq _ fun _ => rfl⟩

theorem outline_of_clearNormals (h : m'.clearNormals = m.clearNormals) :
    m'.outline = m.outline := by
  rw [← outline_clearNormals m', h, outline_clearNormals]

section
variable (h : m'.outline = m.outline)
include h

theorem size_vertices_of_outline : m'.vertices.size = m.vertices.size := by
  have e := congrArg (fun m => m.vertices.size) h
  simpa [outline] using e

theorem size_edges_of_outline : m'.edges.size = m.edges.size := by
  have e := congrArg (fun m => m.edges.size) h
  simpa [outline] using e

theorem vertex_of_outline {v : VertexId} {x : Vertex α} (hx : m'.vertices[v]? = some x) :
    ∃ y, m.vertices[v]? = some y ∧ y.position = x.position ∧ y.entity = x.entity := by
  have e := congrArg (fun m => m.vertices[v]?) h
  simp only [outline, Array.getElem?_map, hx, Option.map_some] at e
  obtain ⟨y, hy, hxy⟩ := Option.map_eq_some_iff.mp e.symm
  exact ⟨y, hy, (congrArg Vertex.position hxy :), (congrArg Vertex.entity hxy :)⟩

theorem ends_of_outline {e : EdgeId} {x : Edge α} (hx : m'.edges[e]? = some x) :
    ∃ y, m.edges[e]? = some y ∧ y.ends = x.ends := by
  have e := congrArg (fun m => m.edges[e]?) h
  simp only [outline, Array.getElem?_map, hx, Option.map_some] at e
  obtain ⟨y, hy, hxy⟩ := Option.map_eq_some_iff.mp e.symm
  exact ⟨y, hy, (congrArg Edge.ends hxy :)⟩

theorem pairs_of_outline : m'.pairs = m.pairs := by
  apply List.ext_getElem?
  intro e
  apply Option.ext
  intro k
  rw [getElem?_pairs, getElem?_pairs]
  refine ⟨?_, ?_⟩
  · intro hx
    obtain ⟨x, hx, rfl⟩ := hx
    exact ends_of_outline h hx
  · intro hx
    obtain ⟨x, hx, rfl⟩ := hx
    exact ends_of_outline h.symm hx

theorem triangles_of_outline : m'.triangles = m.triangles := (congrArg triangles h :)
theorem lines_of_outline : m'.lines = m.lines := (congrArg lines h :)
theorem edgeIndex_of_outline : m'.edgeIndex = m.edgeIndex := (congrArg edgeIndex h :)
theorem triangleEdges_of_outline : m'.triangleEdges = m.triangleEdges :=
  (congrArg triangleEdges h :)
theorem edgeTriangles_of_outline : m'.edgeTriangles = m.edgeTriangles :=
  (congrArg edgeTriangles h :)
theorem singularities_of_outline : m'.singularities = m.singularities :=
  (congrArg singularities h :)

theorem trianglesOn_of_outline (k : VertexId × VertexId) :
    m'.trianglesOn k = m.trianglesOn k := by
  unfold trianglesOn sideList numberedTriangles
  rw [triangles_of_outline h]

theorem Tabled.of_outline (tab : m.Tabled) : m'.Tabled where
  index_of_edge := by
    intro e x hx
    obtain ⟨y, hy, hends⟩ := ends_of_outline h hx
    rw [edgeIndex_of_outline h, ← hends]
    exact tab.index_of_edge hy
  edge_of_index := by
    intro k e hk
    rw [edgeIndex_of_outline h] at hk
    obtain ⟨x, hx, hends⟩ := tab.edge_of_index hk
    obtain ⟨y, hy, hends'⟩ := ends_of_outline h.symm hx
    exact ⟨y, hy, hends'.trans hends⟩
  ends_le := by
    intro e x hx
    obtain ⟨y, hy, hends⟩ := ends_of_outline h hx
    rw [← hends]
    exact tab.ends_le hy
  size_eq := by
    rw [edgeTriangles_of_outline h, size_edges_of_outline h]
    exact tab.size_eq

theorem Adjacent.of_outline (adj : m.Adjacent) : m'.Adjacent where
  size := by
    rw [triangleEdges_of_outline h, triangles_of_outline h]
    exact adj.size
  side := by
    intro t vs hvs
    rw [triangles_of_outline h] at hvs
    rw [triangleEdges_of_outline h, edgeIndex_of_outline h]
    exact adj.side hvs
  present := by
    intro e x hx
    obtain ⟨y, hy, hends⟩ := ends_of_outline h hx
    rw [edgeTriangles_of_outline h, trianglesOn_of_outline h, ← hends]
    exact adj.present hy
  few := by
    intro k
    rw [trianglesOn_of_outline h]
    exact adj.few k

theorem Seated.of_outline (seated : m.Seated) : m'.Seated where
  corner_lt := by
    intro t vs hvs j
    rw [triangles_of_outline h] at hvs
    rw [size_vertices_of_outline h]
    exact seated.corner_lt hvs j
  tabled := seated.tabled.of_outline h
  adjacent := seated.adjacent.of_outline h

theorem Fitted.of_outline (fit : m.Fitted) : m'.Fitted where
  corner_lt := (fit.seated.of_outline h).corner_lt
  proper := by
    intro t vs hvs
    rw [triangles_of_outline h] at hvs
    exact fit.proper hvs
  tabled := fit.tabled.of_outline h
  adjacent := fit.adjacent.of_outline h

end

section
variable (h : m'.clearNormals = m.clearNormals)
include h

theorem edge_of_clearNormals {e : EdgeId} {x : Edge α} (hx : m'.edges[e]? = some x) :
    ∃ y, m.edges[e]? = some y ∧ y.ends = x.ends ∧ y.isFeature = x.isFeature ∧
      y.curve = x.curve := by
  have e := congrArg (fun m => m.edges[e]?) h
  simp only [clearNormals, Array.getElem?_map, hx, Option.map_some] at e
  obtain ⟨y, hy, hxy⟩ := Option.map_eq_some_iff.mp e.symm
  exact ⟨y, hy, (congrArg Edge.ends hxy :), (congrArg Edge.isFeature hxy :),
    (congrArg Edge.curve hxy :)⟩

theorem featureEdges_of_clearNormals : m'.featureEdges = m.featureEdges :=
  (congrArg featureEdges h :)
theorem featureStars_of_clearNormals : m'.featureStars = m.featureStars :=
  (congrArg featureStars h :)

theorem isFeature_of_clearNormals {e : EdgeId} (hf : m.IsFeature e) : m'.IsFeature e := by
  obtain ⟨x, hx, hfeature⟩ := hf
  obtain ⟨y, hy, _, hfeature', _⟩ := edge_of_clearNormals h.symm hx
  exact ⟨y, hy, hfeature'.trans hfeature⟩

theorem feature_of_clearNormals (feature : ∀ e, e ∈ m.featureEdges ↔ m.IsFeature e) (e : EdgeId) :
    e ∈ m'.featureEdges ↔ m'.IsFeature e := by
  rw [featureEdges_of_clearNormals h, feature]
  exact ⟨isFeature_of_clearNormals h, isFeature_of_clearNormals h.symm⟩

theorem Sound.of_clearNormals (sound : m.Sound) : m'.Sound where
  toFitted := sound.toFitted.of_outline (outline_of_clearNormals h)
  feature := feature_of_clearNormals h sound.feature

end

/-! ## updating the normals -/

theorem clearNormals_clearNormals (m : Mesh α) : m.clearNormals.clearNormals = m.clearNormals :=
  clearNormals_congr (map_map_of_eq _ fun _ => rfl) (map_map_of_eq _ fun _ => rfl) rfl

theorem clearNormals_settleNormals (m : Mesh α) :
    m.settleNormals.clearNormals = m.clearNormals :=
  clearNormals_congr (map_map_of_eq _ fun _ => rfl) (map_map_of_eq _ fun _ => rfl) rfl

/-- an edit of normals: whatever comes of it, nothing else is changed -/
def EditsNormals (x : Except (Interrupted α) (Mesh α)) (m : Mesh α) : Prop :=
  (meshAfter x).clearNormals = m.clearNormals

theorem editsNormals_foldlM {β : Type} {f : Mesh α → β → Except (Interrupted α) (Mesh α)}
    (h : ∀ m x, EditsNormals (f m x) m) (xs : List β) (m : Mesh α) :
    EditsNormals (xs.foldlM f m) m := by
  induction xs generalizing m with
  | nil => exact rfl
  | cons x xs ih =>
    rw [List.foldlM_cons]
    have hx := h m x
    cases hstep : f m x with
    | error stopped =>
      rw [hstep] at hx
      exact hx
    | ok next =>
      rw [hstep] at hx
      exact (ih next).trans hx

theorem editsNormals_addNormal (n : Vec3 α) (m : Mesh α) (side : VertexId × VertexId) :
    EditsNormals (addNormal n m side) m := by
  unfold addNormal
  split
  · exact rfl
  · rename_i e he
    cases hedges : alter m.edges e fun x => { x with normal := x.normal + n } with
    | error fault => exact rfl
    | ok edges =>
      cases hvertices : alter m.vertices side.1 fun v => { v with normal := v.normal + n } with
      | error fault => exact rfl
      | ok vertices =>
        obtain ⟨_, rfl⟩ := alter_eq_ok_iff.mp hedges
        obtain ⟨_, rfl⟩ := alter_eq_ok_iff.mp hvertices
        refine clearNormals_congr ?_ ?_ rfl
        · show ((m.vertices.modify side.1 fun v => { v with normal := v.normal + n }).map _) = _
          exact map_modify_of_eq m.vertices side.1 fun _ => rfl
        · show ((m.edges.modify e fun x => { x with normal := x.normal + n }).map _) = _
          exact map_modify_of_eq m.edges e fun _ => rfl

theorem editsNormals_addTriangleNormal (m : Mesh α) (t : TriangleId) :
    EditsNormals (m.addTriangleNormal t) m := by
  unfold addTriangleNormal
  cases hn : m.areaNormal t with
  | error fault => exact rfl
  | ok n =>
    cases hvs : m.triangle t with
    | error fault => exact rfl
    | ok vs => exact editsNormals_foldlM (editsNormals_addNormal n) _ m

theorem editsNormals_updateNormals (m : Mesh α) : EditsNormals m.updateNormals m := by
  have h := editsNormals_foldlM (f := addTriangleNormal) editsNormals_addTriangleNormal
    (List.range m.triangles.size) m.clearNormals
  unfold updateNormals
  cases hsum : (List.range m.triangles.size).foldlM addTriangleNormal m.clearNormals with
  | error stopped =>
    rw [hsum] at h
    exact h.trans (clearNormals_clearNormals m)
  | ok sums =>
    rw [hsum] at h
    exact ((clearNormals_settleNormals sums).trans h).trans (clearNormals_clearNormals m)

/-- a completed update of the normals changes nothing else -/
theorem clearNormals_updateNormals (h : m.updateNormals = .ok m') :
    m'.clearNormals = m.clearNormals := by
  have e := editsNormals_updateNormals m
  rw [h] at e
  exact e

/-! ## progress -/

omit [Scalar α] in
theorem position_of_lt {v : VertexId} (h : v < m.vertices.size) :
    m.position v = .ok m.vertices[v].position := by
  unfold position
  rw [fetch_of_lt h]
  rfl

theorem Seated.areaNormal_total (h : m.Seated) {t : TriangleId} (ht : t < m.triangles.size) :
    ∃ n, m.areaNormal t = .ok n := by
  have hvs := fetch_of_lt ht
  have hlt := h.corner_lt (Array.getElem?_eq_getElem ht)
  have ha := position_of_lt (hlt 0)
  have hb := position_of_lt (hlt 1)
  have hc := position_of_lt (hlt 2)
  unfold areaNormal corners triangle
  simp only [Triple.get] at ha hb hc
  simp only [hvs, ha, hb, hc, bind, Except.bind, pure, Except.pure]
  exact ⟨_, rfl⟩

theorem Seated.addNormal_total (h : m.Seated) (n : Vec3 α) {a b : VertexId} {e : EdgeId}
    (he : m.edgeIndex[edgeKey a b]? = some e) (ha : a < m.vertices.size) :
    ∃ m', addNormal n m (a, b) = .ok m' := by
  have hlt := h.tabled.lt_size he
  unfold addNormal findEdge?
  simp only [he, alter_of_lt hlt, alter_of_lt ha, leaving, mapError_ok, bind, Except.bind,
    pure, Except.pure]
  exact ⟨_, rfl⟩

theorem Seated.addTriangleNormal_total (h : m.Seated) {t : TriangleId}
    (ht : t < m.triangles.size) : ∃ m', m.addTriangleNormal t = .ok m' := by
  obtain ⟨n, hn⟩ := h.areaNormal_total ht
  have hvs := Array.getElem?_eq_getElem ht
  obtain ⟨es, _, hside⟩ := h.adjacent.side hvs
  -- every mesh on the way is `m` with other normals
  have keep : ∀ pre side post (s : Mesh α), m.triangles[t].sides.toList = pre ++ side :: post →
      s.clearNormals = m.clearNormals →
      ∃ next, addNormal n s side = .ok next ∧ next.clearNormals = m.clearNormals := by
    intro pre side post s e hs
    have hmem : side ∈ m.triangles[t].sides.toList := by
      rw [e]
      simp
    obtain ⟨j, rfl⟩ := Triple.mem_toList.mp hmem
    have hout := outline_of_clearNormals hs
    have hkey := hside j
    rw [Triple.get_keys, ← edgeIndex_of_outline hout] at hkey
    have hlt := h.corner_lt hvs j
    rw [← size_vertices_of_outline hout] at hlt
    rw [Triple.get_sides]
    obtain ⟨next, hnext⟩ := (h.of_outline hout).addNormal_total n hkey hlt
    have hedit := editsNormals_addNormal n s (m.triangles[t].get j, m.triangles[t].get (j + 1))
    rw [hnext] at hedit
    exact ⟨next, hnext, hedit.trans hs⟩
  obtain ⟨m', hok, _⟩ := foldlM_total (P := fun _ s => s.clearNormals = m.clearNormals)
    (f := addNormal n) keep rfl
  refine ⟨m', ?_⟩
  unfold addTriangleNormal triangle
  simp only [hn, fetch_of_lt ht, leaving, mapError_ok, bind, Except.bind]
  exact hok

/-- on a seated mesh the update of the normals completes -/
theorem updateNormals_total (h : m.Seated) : ∃ m', m.updateNormals = .ok m' := by
  have keep : ∀ pre t post (s : Mesh α), List.range m.triangles.size = pre ++ t :: post →
      s.clearNormals = m.clearNormals →
      ∃ next, s.addTriangleNormal t = .ok next ∧ next.clearNormals = m.clearNormals := by
    intro pre t post s e hs
    have hmem : t ∈ List.range m.triangles.size := by
      rw [e]
      simp
    have hout := outline_of_clearNormals hs
    rw [List.mem_range, ← triangles_of_outline hout] at hmem
    obtain ⟨next, hnext⟩ := (h.of_outline hout).addTriangleNormal_total hmem
    have hedit := editsNormals_addTriangleNormal s t
    rw [hnext] at hedit
    exact ⟨next, hnext, hedit.trans hs⟩
  obtain ⟨sums, hok, _⟩ := foldlM_total (P := fun _ s => s.clearNormals = m.clearNormals)
    (f := addTriangleNormal) keep (clearNormals_clearNormals m)
  refine ⟨sums.settleNormals, ?_⟩
  unfold updateNormals
  rw [hok]
  rfl

end Mesh
end DiskCut
