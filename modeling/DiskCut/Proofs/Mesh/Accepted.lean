import DiskCut.Proofs.Obtained
import DiskCut.Proofs.Mesh.Lined
import DiskCut.Proofs.Mesh.Stops

/-!
# What the builder accepts, and what it makes of it

* `Refused.unique`, `Acceptable.not_refused`   at most one thing is wrong first, and nothing with
                      acceptable input
* `Assembled`         the mesh of acceptable input, all of its derived part included
* `assemble_cases`    the builder makes it, or reports what is wrong first
* `assemble_accepts`  so acceptance, refusal and result are as specified
-/

namespace DiskCut
open Std

/-! ## one thing is wrong first -/

section
variable {count : Nat} {triangles : List (Triple Nat)} {lines : List Line} {a b : MeshError}
  {k : VertexId × VertexId}

theorem EdgeManifold.not_thirdUse (h : EdgeManifold triangles)
    (distinct : ∀ vs ∈ triangles, vs.Distinct) : ¬ ThirdUse (sideScan triangles) k := by
  intro hk
  have hlt := hk.two_lt_count
  rw [count_sideScan distinct] at hlt
  exact Nat.not_lt.mpr (h k) hlt

theorem Acceptable.not_refused (h : Acceptable count triangles lines) :
    ¬ Refused count triangles lines a := by
  intro hrefused
  cases hrefused with
  | corner ht _ => exact ht.not_all h.triangle
  | degenerate ht _ => exact ht.not_all h.triangle
  | lineEnd _ hs _ => exact hs.not_all h.line
  | thirdUse _ _ hscan full few =>
    exact h.manifold.not_thirdUse (fun vs hvs => (h.triangle vs hvs).2) ⟨_, _, hscan, full, few⟩
  | noSide _ _ _ hs => exact hs.not_all h.side

/-- an earlier stage that finds something keeps the later ones from being asked -/
theorem Refused.unique (h : Refused count triangles lines a) (h' : Refused count triangles lines b) :
    a = b := by
  cases h with
  | corner ht hv =>
    cases h' with
    | corner ht' hv' =>
      obtain ⟨rfl, rfl⟩ := ht.unique ht'
      obtain ⟨_, rfl⟩ := hv.unique hv'
      rfl
    | degenerate ht' hlt =>
      obtain ⟨_, rfl⟩ := ht.unique ht'
      exact absurd hlt hv.not_all
    | lineEnd hall | thirdUse hall | noSide hall => exact absurd hall ht.not_all
  | degenerate ht hlt =>
    cases h' with
    | corner ht' hv' =>
      obtain ⟨_, rfl⟩ := ht.unique ht'
      exact absurd hlt hv'.not_all
    | degenerate ht' _ =>
      obtain ⟨rfl, _⟩ := ht.unique ht'
      rfl
    | lineEnd hall | thirdUse hall | noSide hall => exact absurd hall ht.not_all
  | lineEnd hall hs hv =>
    cases h' with
    | corner ht' | degenerate ht' => exact absurd hall ht'.not_all
    | lineEnd _ hs' hv' =>
      obtain ⟨rfl, rfl⟩ := hs.unique hs'
      obtain ⟨_, rfl⟩ := hv.unique hv'
      rfl
    | thirdUse _ hall' | noSide _ hall' => exact absurd hall' hs.not_all
  | thirdUse hall hall' hscan full few =>
    cases h' with
    | corner ht' | degenerate ht' => exact absurd hall ht'.not_all
    | lineEnd _ hs' => exact absurd hall' hs'.not_all
    | thirdUse _ _ hscan' full' few' =>
      rw [ThirdUse.unique ⟨_, _, hscan, full, few⟩ ⟨_, _, hscan', full', few'⟩]
    | noSide _ _ hmanifold =>
      exact (hmanifold.not_thirdUse (fun vs hvs => (hall vs hvs).2) ⟨_, _, hscan, full, few⟩).elim
  | noSide hall hall' hmanifold hs =>
    cases h' with
    | corner ht' | degenerate ht' => exact absurd hall ht'.not_all
    | lineEnd _ hs' => exact absurd hall' hs'.not_all
    | thirdUse _ _ hscan full few =>
      exact (hmanifold.not_thirdUse (fun vs hvs => (hall vs hvs).2) ⟨_, _, hscan, full, few⟩).elim
    | noSide _ _ _ hs' =>
      obtain ⟨_, rfl⟩ := hs.unique hs'
      rfl

end

/-! ## the mesh of acceptable input -/

namespace Mesh
variable {α : Type}

/-- the mesh of acceptable input -/
structure Assembled (points : Array (ModelPoint α)) (triangles : List (Triple Nat))
    (lines : List Line) (m : Mesh α) : Prop where
  isValid : m.isValid = true
  positions : m.vertices.map (·.position) = points.map (·.position)
  entities : m.vertices.map (·.entity) = points.map (·.entity)
  triangles_eq : m.triangles.toList = triangles
  lines_eq : m.lines.toList = lines
  undesignated : m.singularities = ∅
  /-- the edges are the sides, each once and numbered as it first occurs -/
  pairs : m.edges.toList.map Edge.ends = (sideScan triangles).eraseDups
  index : ∀ (k : VertexId × VertexId) (e : EdgeId),
    m.edgeIndex[k]? = some e ↔ ∃ x, m.edges[e]? = some x ∧ x.ends = k
  triangleEdges_size : m.triangleEdges.size = triangles.length
  /-- side `j` of a triangle is the edge between its corners `j` and `j + 1` -/
  side : ∀ (t : TriangleId) (vs : Triple VertexId), triangles[t]? = some vs →
    ∃ es, m.triangleEdges[t]? = some es ∧
      ∀ j, ∃ x, m.edges[es.get j]? = some x ∧ x.ends = edgeKey (vs.get j) (vs.get (j + 1))
  edgeTriangles_size : m.edgeTriangles.size = m.edges.size
  /-- the triangles at an edge are those with this side, in increasing order -/
  incident : ∀ (e : EdgeId) (x : Edge α), m.edges[e]? = some x →
    ∃ ts, m.edgeTriangles[e]? = some ts ∧ ts.Pairwise (· < ·) ∧
      ∀ t, t ∈ ts ↔ ∃ vs, triangles[t]? = some vs ∧ x.ends ∈ vs.keys.toList
  /-- an edge is a feature when a line is on it -/
  isFeature : ∀ (e : EdgeId) (x : Edge α), m.edges[e]? = some x →
    (x.isFeature = true ↔ ∃ line ∈ lines, edgeKey line.ends.1 line.ends.2 = x.ends)
  /-- the last line on an edge gives its curve; an edge without lines has none -/
  curve : ∀ (e : EdgeId) (x : Edge α), m.edges[e]? = some x →
    x.curve = (linesOn lines x.ends).getLast?.bind Line.curve
  featureEdges : ∀ e, e ∈ m.featureEdges ↔ m.IsFeature e
  featureEdgesAt : ∀ v, m.featureEdgesAt v = m.raysAt v
  featureVertices : ∀ v, v ∈ m.featureVertices ↔ ∃ e, m.IsFeature e ∧ m.IsEnd e v

/-! ## assembling -/

section
variable [Scalar α] {points : Array (ModelPoint α)} {triangles : List (Triple Nat)}
  {lines : List Line} {m : Mesh α}

theorem map_of_given {β : Type} {f : Vertex α → β} {m' : Mesh α} (h : m'.given = m.given)
    (hf : ∀ v : Vertex α, f { v with normal := .zero } = f v) :
    m'.vertices.map f = m.vertices.map f := by
  have e := congrArg (fun m => m.vertices.map f) h
  simp only [given, clearTopology, Array.map_map] at e
  have hfun : (f ∘ fun v : Vertex α => { v with normal := .zero }) = f := funext hf
  rwa [hfun] at e

theorem Derived.assembled (h : Derived (ofParts points triangles lines) m) :
    Assembled points triangles lines m := by
  have htriangles : m.triangles.toList = triangles := by
    rw [triangles_of_given h.given_eq]
    rfl
  have hget : ∀ t : TriangleId, m.triangles[t]? = triangles[t]? := by
    intro t
    rw [← htriangles, Array.getElem?_toList]
  have hlines : m.lines.toList = lines := by
    rw [lines_of_given h.given_eq]
    rfl
  have hmark : ∀ {e : EdgeId} {x : Edge α}, m.edges[e]? = some x →
      (x.isFeature, x.curve) = lineMark lines x.ends := by
    intro e x hx
    rw [← hlines]
    exact h.lined.marked hx
  exact {
    isValid := h.upToDate.isValid
    positions := by
      rw [map_of_given h.given_eq fun _ => rfl]
      exact Array.map_map
    entities := by
      rw [map_of_given h.given_eq fun _ => rfl]
      exact Array.map_map
    triangles_eq := htriangles
    lines_eq := hlines
    undesignated := singularities_of_given h.given_eq
    pairs := by
      have hpairs := h.pairs_eq
      rw [map_fst_sideList] at hpairs
      exact hpairs
    index := fun k e => by rw [h.tabled.index_iff, getElem?_pairs]
    triangleEdges_size := by
      rw [h.adjacent.size, ← htriangles, Array.length_toList]
    side := by
      intro t vs hvs
      rw [← hget] at hvs
      obtain ⟨es, hes, hside⟩ := h.adjacent.side hvs
      exact ⟨es, hes, fun j => Triple.get_keys vs j ▸ h.tabled.edge_of_index (hside j)⟩
    edgeTriangles_size := h.tabled.size_eq
    incident := by
      intro e x hx
      refine ⟨_, h.adjacent.present hx, trianglesOn_sorted h.proper, fun t => ?_⟩
      simp only [mem_trianglesOn, hget, Triple.mem_toList]
    isFeature := by
      intro e x hx
      have hflag : x.isFeature = (lineMark lines x.ends).1 := congrArg Prod.fst (hmark hx)
      rw [hflag, lineMark_flag]
    curve := by
      intro e x hx
      exact congrArg Prod.snd (hmark hx)
    featureEdges := h.feature
    featureEdgesAt := h.starred.featureEdgesAt
    featureVertices := by
      intro v
      rw [h.starred.mem_featureVertices]
      exact exists_congr fun e => and_congr_left' (h.feature e) }

/-- a mesh has the positions that it was built from, unless it is empty -/
theorem positions_of_ofTriangles {points : Array (Vec3 α)} {segments : List (Nat × Nat)}
    (h : (ofTriangles points triangles segments).result = .ok m) (hsome : m.triangles ≠ #[]) :
    m.vertices.map (·.position) = points := by
  rcases derived_of_assemble h with rfl | hderived
  · exact absurd rfl hsome
  · rw [hderived.assembled.positions, Array.map_map]
    exact Array.map_id' _

/-- the mesh of the input is derived, or the topology tells what is wrong first -/
theorem deriveTopology_ofParts (hfits : ∀ vs ∈ triangles, TriangleFits points.size vs)
    (hfits' : ∀ line ∈ lines, LineFits points.size line) :
    (∃ m, (ofParts points triangles lines).deriveTopology = .ok m ∧
      Acceptable points.size triangles lines ∧ Assembled points triangles lines m) ∨
    ∃ stopped cause, (ofParts points triangles lines).deriveTopology = .error stopped ∧
      stopped.fault = .mesh cause ∧ Refused points.size triangles lines cause := by
  have hposed : (ofParts points triangles lines).WellPosed := wellPosed_ofParts hfits
  have manifold : (∀ k, ((ofParts points triangles lines).trianglesOn k).length ≤ 2) →
      EdgeManifold triangles := by
    intro hfew k
    have hle := hfew k
    rw [length_trianglesOn hposed.proper] at hle
    exact hle
  rcases deriveTopology_sides hposed.corner_lt with ⟨m, hok, hnew⟩ |
    ⟨k, ⟨before, after, hscan, full, few⟩, stopped, hstop, hfault⟩ |
    ⟨i, line, few, hfirst, stopped, hstop, hfault⟩
  · exact .inl ⟨m, hok, ⟨hfits, hfits', manifold hnew.few, fun line hline => hnew.sides hline⟩,
      (hnew.derived hposed).assembled⟩
  · exact .inr ⟨stopped, _, hstop, hfault, .thirdUse hfits hfits' hscan full few⟩
  · exact .inr ⟨stopped, _, hstop, hfault, .noSide hfits hfits' (manifold few) hfirst⟩

/-- the builder makes the mesh of acceptable input, and of other input it reports what is wrong
first -/
theorem assemble_cases (points : Array (ModelPoint α)) (lines : List Line)
    (nonempty : triangles ≠ []) :
    (∃ m, (assemble points triangles lines).result = .ok m ∧
      Acceptable points.size triangles lines ∧ Assembled points triangles lines m) ∨
    ∃ cause, (assemble points triangles lines).result = .error (.mesh cause) ∧
      Refused points.size triangles lines cause := by
  have hchecked : (assemble points triangles lines).result
      = assembleChecked points triangles lines := by
    unfold assemble
    rw [if_neg (by simpa using nonempty), Logged.result_lift]
  rw [hchecked]
  unfold assembleChecked
  rcases checkInput_cases points.size triangles lines with ⟨hcheck, hfits, hfits'⟩ |
    ⟨cause, hcheck, hrefused⟩
  · rw [hcheck]
    rcases deriveTopology_ofParts hfits hfits' with ⟨m, hok, hrest⟩ |
      ⟨stopped, cause, hstop, hfault, hrefused⟩
    · exact .inl ⟨m, mapError_eq_ok_iff.mpr hok, hrest⟩
    · exact .inr ⟨cause, mapError_eq_error_iff.mpr ⟨stopped, hstop, hfault⟩, hrefused⟩
  · rw [hcheck]
    exact .inr ⟨cause, rfl, hrefused⟩

theorem assembled_of_ok (nonempty : triangles ≠ [])
    (hok : (assemble points triangles lines).result = .ok m) :
    Assembled points triangles lines m := by
  rcases assemble_cases points lines nonempty with ⟨m', hok', _, hassembled⟩ | ⟨_, herr, _⟩
  · rw [hok] at hok'
    exact Except.ok.inj hok' ▸ hassembled
  · rw [hok] at herr
    cases herr

omit [Scalar α] in
theorem Assembled.size_vertices (h : Assembled points triangles lines m) :
    m.vertices.size = points.size := by
  rw [← Array.size_map (f := (·.position)), h.positions, Array.size_map]

/-- on a model that has a triangle, designations are made last -/
theorem ofModel_eq {model : Model α} (nonempty : model.surfaces.flatMap (·.triangles) ≠ []) :
    (ofModel model).result
      = (assemble model.points (model.surfaces.flatMap (·.triangles))
          (model.curves.flatMap linesOfCurve)).result >>= fun m =>
        (m.designate model some).mapError .mesh := by
  unfold ofModel
  rw [Logged.result_bind]
  cases hm : (assemble model.points (model.surfaces.flatMap (·.triangles))
    (model.curves.flatMap linesOfCurve)).result with
  | error fault => rfl
  | ok m =>
    have htriangles := (assembled_of_ok nonempty hm).triangles_eq
    have hsome : m.triangles.isEmpty = false := by
      rw [← htriangles] at nonempty
      simpa using nonempty
    show Logged.result (if m.triangles.isEmpty then _ else _) = _
    rw [hsome]
    rfl

/-- The builder on points, triangles, of which there is one at least, and lines.  It succeeds on just
the acceptable index lists; it gives an error just when that is what is wrong first; and the mesh that
it makes has exactly the topology of the lists. -/
theorem assemble_accepts (points : Array (ModelPoint α)) (triangles : List (Triple Nat))
    (lines : List Line) (nonempty : triangles ≠ []) :
    ((∃ m, (assemble points triangles lines).result = .ok m) ↔
      Acceptable points.size triangles lines) ∧
    (∀ fault, (assemble points triangles lines).result = .error fault ↔
      ∃ cause, fault = .mesh cause ∧ Refused points.size triangles lines cause) ∧
    ∀ m, (assemble points triangles lines).result = .ok m →
      Assembled points triangles lines m := by
  refine ⟨?_, ?_, fun m hok => assembled_of_ok nonempty hok⟩
  · rcases assemble_cases points lines nonempty with ⟨m, hok, hacceptable, _⟩ |
      ⟨cause, herr, hrefused⟩
    · exact iff_of_true ⟨m, hok⟩ hacceptable
    · refine iff_of_false ?_ fun hacceptable => hacceptable.not_refused hrefused
      intro ⟨m, hok⟩
      rw [herr] at hok
      cases hok
  · intro fault
    rcases assemble_cases points lines nonempty with ⟨m, hok, hacceptable, _⟩ |
      ⟨cause, herr, hrefused⟩
    · rw [hok]
      exact iff_of_false nofun fun ⟨_, _, hrefused⟩ => hacceptable.not_refused hrefused
    · rw [herr]
      refine ⟨fun hfault => ⟨cause, (Except.error.inj hfault).symm, hrefused⟩, ?_⟩
      intro ⟨cause', hfault, hrefused'⟩
      rw [hfault, hrefused.unique hrefused']

theorem accepts_threeTriangles : ∃ m, threeTriangles.result = .ok m ∧
    Acceptable 5 [⟨0, 1, 2⟩, ⟨0, 2, 3⟩, ⟨0, 3, 4⟩] [⟨(0, 2), none⟩] ∧
    m.edges.toList.map Edge.ends = [(0, 1), (1, 2), (0, 2), (2, 3), (0, 3), (3, 4), (0, 4)] := by
  obtain ⟨m, hm, _⟩ := threeTriangles_ok
  let points : Array (Vec3 Float) := #[⟨0, 0, 0⟩, ⟨1, 0, 0⟩, ⟨1, 1, 0⟩, ⟨0, 1, 0⟩, ⟨-1, 0, 0⟩]
  obtain ⟨haccepts, _, hmesh⟩ := assemble_accepts (points.map (⟨·, none⟩))
    [⟨0, 1, 2⟩, ⟨0, 2, 3⟩, ⟨0, 3, 4⟩] [⟨(0, 2), none⟩] (List.cons_ne_nil _ _)
  refine ⟨m, hm, ?_, ?_⟩
  · rw [Array.size_map] at haccepts
    exact haccepts.mp ⟨m, hm⟩
  · rw [(hmesh m hm).pairs]
    decide

end
end Mesh
end DiskCut
