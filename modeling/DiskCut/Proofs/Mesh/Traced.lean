import DiskCut.Proofs.Mesh.Renumber
import DiskCut.Proofs.Mesh.Derive

/-!
# What edits do to the adjacency

The adjacency of a mesh is what the latest update of the edges left behind; edits made since then may
have moved the triangles away from it.

* `Traced m seen rest`   the latest update recorded the triangles `seen`, and stopped after the sides
                         `rest` of the next one
* `Kept m`               there are such triangles and sides, and the feature marks agree
* `meshAfter_bind`       what two edits in a row keep, the first of which may stop
* `Kept.insertEdge`, …   every edit keeps `Kept`, also when it stops half way
* `Kept.given_updateEdges`, `given_updateNormals`, `given_deriveTopology`   updates and derivations leave
                         the given part alone
-/

namespace DiskCut
open Std
namespace Mesh
variable {α : Type}

/-- the latest update recorded the triangles `seen`, and stopped after the sides `rest` of the next
one -/
structure Traced (m : Mesh α) (seen : List (Triple VertexId × TriangleId))
    (rest : List ((VertexId × VertexId) × TriangleId)) : Prop where
  tabled : m.Tabled
  sided : Sided seen m
  present : ∀ {e : EdgeId} {x : Edge α}, m.edges[e]? = some x →
    m.edgeTriangles[e]? = some (owners (sidesAmong seen ++ rest) x.ends)
  few : ∀ k, (owners (sidesAmong seen ++ rest) k).length ≤ 2
  known : ∀ k ∈ rest.map Prod.fst, ∃ e, m.edgeIndex[k]? = some e
  numbered : ∀ {i : Nat} {x : Triple VertexId × TriangleId}, seen[i]? = some x → x.2 = i
  within : seen.length ≤ m.triangles.size
  halted : ∀ p ∈ rest, p.2 = seen.length ∧ seen.length < m.triangles.size

/-- the adjacency is what an update left behind, and the feature marks agree -/
structure Kept (m : Mesh α) : Prop where
  traced : ∃ seen rest, m.Traced seen rest
  marks : m.Marks

/-! ## where an update leaves the adjacency -/

section
variable {m m' : Mesh α} {seen : List (Triple VertexId × TriangleId)}
  {rest : List ((VertexId × VertexId) × TriangleId)}

theorem getElem?_numberedTriangles {i : Nat} {x : Triple VertexId × TriangleId} :
    m.numberedTriangles[i]? = some x ↔ m.triangles[i]? = some x.1 ∧ x.2 = i := by
  obtain ⟨vs, t⟩ := x
  rw [numberedTriangles, List.getElem?_zipIdx, Array.getElem?_toList]
  cases m.triangles[i]? <;> simp [eq_comm]

theorem length_numberedTriangles : m.numberedTriangles.length = m.triangles.size := by
  rw [numberedTriangles, List.length_zipIdx, Array.length_toList]

/-- adjacency that is up to date is what an update left behind -/
theorem Adjacent.traced (adj : m.Adjacent) (tab : m.Tabled) : m.Traced m.numberedTriangles [] where
  tabled := tab
  sided :=
    { size := adj.size.trans length_numberedTriangles.symm
      side := by
        intro i x hx
        exact adj.side (getElem?_numberedTriangles.mp hx).1 }
  present := by
    intro e x hx
    rw [List.append_nil]
    exact adj.present hx
  few := by
    intro k
    rw [List.append_nil]
    exact adj.few k
  known := by simp
  numbered := fun hx => (getElem?_numberedTriangles.mp hx).2
  within := Nat.le_of_eq length_numberedTriangles
  halted := by simp

/-- so is no adjacency at all -/
theorem traced_nil (tab : m.Tabled) (sides : m.triangleEdges = #[])
    (present : ∀ {e : EdgeId} {x : Edge α}, m.edges[e]? = some x → m.edgeTriangles[e]? = some []) :
    m.Traced [] [] where
  tabled := tab
  sided :=
    { size := by
        rw [sides]
        rfl
      side := by simp }
  present := present
  few := fun _ => Nat.zero_le 2
  known := by simp
  numbered := by simp
  within := Nat.zero_le _
  halted := by simp

theorem Halted.traced [Scalar α] {pre post : List (Triple VertexId × TriangleId)}
    {x : Triple VertexId × TriangleId} (hsplit : m.numberedTriangles = pre ++ x :: post)
    (h : Halted m pre x.2 m') : ∃ rest, m'.Traced pre rest := by
  obtain ⟨keys, rest, hjoin, hsided, hrest⟩ := h
  have hlen : pre.length < m'.triangles.size := by
    rw [triangles_of_withoutEdges hjoin.frame, ← length_numberedTriangles, hsplit,
      List.length_append, List.length_cons]
    omega
  have hx : x.2 = pre.length := by
    have hget : m.numberedTriangles[pre.length]? = some x := by
      rw [hsplit, List.getElem?_append_right (Nat.le_refl _), Nat.sub_self]
      rfl
    exact (getElem?_numberedTriangles.mp hget).2
  exact ⟨rest, {
    tabled := hjoin.tabled
    sided := hsided
    present := hjoin.present
    few := hjoin.few
    known := by
      intro k hk
      refine hjoin.known k (hjoin.read k ?_)
      rw [List.map_append]
      exact List.mem_append_right _ hk
    numbered := by
      intro i y hy
      have hall : m.numberedTriangles[i]? = some y := by
        rw [hsplit, List.getElem?_append_left (List.getElem?_eq_some_iff.mp hy).1]
        exact hy
      exact (getElem?_numberedTriangles.mp hall).2
    within := Nat.le_of_lt hlen
    halted := fun p hp => ⟨(hrest p hp).trans hx, hlen⟩ }⟩

/-! ## edits of the edge set -/

/-- every recorded pair is an edge -/
theorem Traced.known_all (h : m.Traced seen rest) {k : VertexId × VertexId}
    (hk : owners (sidesAmong seen ++ rest) k ≠ []) : ∃ e, m.edgeIndex[k]? = some e := by
  rw [owners_ne_nil, List.map_append, List.mem_append] at hk
  rcases hk with hk | hk
  · obtain ⟨t, ht⟩ := List.exists_mem_of_ne_nil _ (owners_ne_nil.mpr hk)
    obtain ⟨vs, hvs, j, rfl⟩ := mem_sidesAmong.mp (mem_owners.mp ht)
    obtain ⟨i, hi⟩ := List.mem_iff_getElem?.mp hvs
    obtain ⟨es, _, hside⟩ := h.sided.side hi
    exact ⟨es.get j, hside j⟩
  · exact h.known k hk

theorem Traced.pushEdge (h : m.Traced seen rest) {x : Edge α} (le : x.ends.1 ≤ x.ends.2)
    (fresh : m.edgeIndex[x.ends]? = none) : (m.pushEdge x).Traced seen rest where
  tabled := h.tabled.push le fresh
  sided := h.sided.extend (extends_pushEdge fresh)
  present := by
    intro e y hy
    change (m.edges.push x)[e]? = some y at hy
    show (m.edgeTriangles.push [])[e]? = _
    rw [Array.getElem?_push] at hy ⊢
    rw [h.tabled.size_eq]
    split at hy
    · rename_i he
      obtain rfl := Option.some.inj hy
      -- a pair that the table does not know was never recorded
      have hnil : owners (sidesAmong seen ++ rest) x.ends = [] := by
        by_contra hne
        obtain ⟨e', he'⟩ := h.known_all hne
        rw [fresh] at he'
        cases he'
      rw [if_pos he, hnil]
    · rename_i he
      rw [if_neg he]
      exact h.present hy
  few := h.few
  known := by
    intro k hk
    obtain ⟨e, he⟩ := h.known k hk
    exact ⟨e, (extends_pushEdge fresh).index he⟩
  numbered := h.numbered
  within := h.within
  halted := h.halted

theorem isFeature_pushEdge {x : Edge α} {e : EdgeId} :
    (m.pushEdge x).IsFeature e ↔ e = m.edges.size ∧ x.isFeature = true ∨ m.IsFeature e := by
  unfold IsFeature
  show (∃ y, (m.edges.push x)[e]? = some y ∧ _) ↔ _
  rw [Array.getElem?_push]
  by_cases he : e = m.edges.size
  · subst he
    simp
  · simp [he]

/-- an edge more, listed as a feature edge if it is flagged as one -/
theorem Marks.pushEdge (h : m.Marks) {x : Edge α} {features : ExtTreeSet EdgeId}
    (hfeatures : ∀ e, e ∈ features ↔ e = m.edges.size ∧ x.isFeature = true ∨ e ∈ m.featureEdges)
    (lines : Array Line) :
    Marks { m.pushEdge x with featureEdges := features, lines } where
  feature := by
    intro e
    show e ∈ features ↔ (m.pushEdge x).IsFeature e
    rw [hfeatures, isFeature_pushEdge, h.feature]
  star_lt := by
    intro v es hes e he
    have hlt : e < m.edges.size := h.star_lt hes e he
    show e < (m.edges.push x).size
    rw [Array.size_push]
    exact Nat.lt_succ_of_lt hlt

/-! ## meshes that differ in normals or feature marks -/

theorem Traced.of_outline [Scalar α] (h : m'.outline = m.outline) (hm : m.Traced seen rest) :
    m'.Traced seen rest where
  tabled := hm.tabled.of_outline h
  sided :=
    { size := by
        rw [triangleEdges_of_outline h]
        exact hm.sided.size
      side := by
        rw [triangleEdges_of_outline h, edgeIndex_of_outline h]
        exact hm.sided.side }
  present := by
    intro e x hx
    obtain ⟨y, hy, hends⟩ := ends_of_outline h hx
    rw [edgeTriangles_of_outline h, ← hends]
    exact hm.present hy
  few := hm.few
  known := by
    rw [edgeIndex_of_outline h]
    exact hm.known
  numbered := hm.numbered
  within := by
    rw [triangles_of_outline h]
    exact hm.within
  halted := by
    rw [triangles_of_outline h]
    exact hm.halted

theorem Marks.of_clearNormals [Scalar α] (h : m'.clearNormals = m.clearNormals) (hm : m.Marks) :
    m'.Marks where
  feature := feature_of_clearNormals h hm.feature
  star_lt := by
    rw [featureStars_of_clearNormals h, size_edges_of_outline (outline_of_clearNormals h)]
    exact hm.star_lt

theorem Marks.flagged (h : m.Marks) {e : EdgeId} (he : e < m.edges.size) (curve : Option Int) :
    (m.flagged e curve).Marks where
  feature := feature_flagged h.feature he curve
  star_lt := by
    intro v es hes e' he'
    show e' < (m.edges.modify e _).size
    rw [Array.size_modify]
    exact h.star_lt hes e' he'

end

/-! ## edits in a row -/

section
variable {P : Mesh α → Prop} {m : Mesh α}

theorem meshAfter_bind {x : Except (Interrupted α) (Mesh α)}
    {f : Mesh α → Except (Interrupted α) (Mesh α)} (hx : P (meshAfter x))
    (hf : ∀ m, P m → P (meshAfter (f m))) : P (meshAfter (x >>= f)) := by
  cases x with
  | ok m => exact hf m hx
  | error stopped => exact hx

theorem meshAfter_foldlM {β : Type} {f : Mesh α → β → Except (Interrupted α) (Mesh α)}
    (h : ∀ m x, P m → P (meshAfter (f m x))) (xs : List β) (hm : P m) :
    P (meshAfter (xs.foldlM f m)) := by
  induction xs generalizing m with
  | nil => exact hm
  | cons x xs ih =>
    rw [List.foldlM_cons]
    exact meshAfter_bind (h m x hm) fun _ hnext => ih hnext

theorem meshAfter_of_ok {x : Except (Interrupted α) (Mesh α)} {m' : Mesh α} (hok : x = .ok m')
    (h : P (meshAfter x)) : P m' := by
  rw [hok] at h
  exact h

end

/-! ## every edit -/

section
variable [Scalar α] {m m' : Mesh α}

theorem Kept.of_clearNormals (h : m'.clearNormals = m.clearNormals) (hm : m.Kept) : m'.Kept where
  traced := by
    obtain ⟨seen, rest, hseen⟩ := hm.traced
    exact ⟨seen, rest, hseen.of_outline (outline_of_clearNormals h)⟩
  marks := hm.marks.of_clearNormals h

omit [Scalar α] in
/-- the given part may change, the number of triangles apart -/
theorem Kept.withGiven (h : m.Kept) (vertices : Array (Vertex α)) (lines : Array Line)
    (singularities : ExtTreeMap VertexId SingularityKind) {triangles : Array (Triple VertexId)}
    (size : triangles.size = m.triangles.size) :
    Kept { m with vertices, triangles, lines, singularities } where
  traced := by
    obtain ⟨seen, rest, hseen⟩ := h.traced
    exact ⟨seen, rest, {
      tabled := { hseen.tabled with }
      sided := { hseen.sided with }
      present := hseen.present
      few := hseen.few
      known := hseen.known
      numbered := hseen.numbered
      within := size ▸ hseen.within
      halted := fun p hp =>
        ⟨(hseen.halted p hp).1, size ▸ (hseen.halted p hp).2⟩ }⟩
  marks := { h.marks with }

theorem Kept.addVertex (h : m.Kept) (position : Vec3 α) (entity : Option Entity) :
    (m.addVertex position entity).Kept :=
  h.withGiven _ m.lines m.singularities rfl

omit [Scalar α] in
theorem Kept.setCorner (h : m.Kept) {t : TriangleId} {corner : Nat} {v : VertexId}
    (hok : m.setCorner t corner v = .ok m') : m'.Kept := by
  obtain ⟨_, _, rfl⟩ := setCorner_eq_ok_iff.mp hok
  exact h.withGiven m.vertices m.lines m.singularities Array.size_modify

omit [Scalar α] in
theorem Kept.setSingularity (h : m.Kept) {v : VertexId} {kind : SingularityKind}
    (hok : m.setSingularity v kind = .ok m') : m'.Kept := by
  obtain ⟨_, _, rfl⟩ := setSingularity_eq_ok_iff.mp hok
  exact h.withGiven m.vertices m.lines _ rfl

theorem Marks.insertEdge (h : m.Marks) (a b : VertexId) : (m.insertEdge a b).1.Marks := by
  rcases insertEdge_cases m a b with ⟨e, _, hins⟩ | ⟨_, hins⟩
  · rw [hins]
    exact h
  · rw [hins]
    exact h.pushEdge (x := plainEdge a b) (by simp [plainEdge]) m.lines

theorem Traced.insertEdge {seen : List (Triple VertexId × TriangleId)}
    {rest : List ((VertexId × VertexId) × TriangleId)} (h : m.Traced seen rest) (a b : VertexId) :
    (m.insertEdge a b).1.Traced seen rest := by
  rcases insertEdge_cases m a b with ⟨e, _, hins⟩ | ⟨hnone, hins⟩
  · rw [hins]
    exact h
  · rw [hins]
    exact h.pushEdge (x := plainEdge a b) (edgeKey_fst_le a b) hnone

theorem Kept.insertEdge (h : m.Kept) (a b : VertexId) : (m.insertEdge a b).1.Kept where
  traced := by
    obtain ⟨seen, rest, hseen⟩ := h.traced
    exact ⟨seen, rest, hseen.insertEdge a b⟩
  marks := h.marks.insertEdge a b

theorem Marks.insertFeatureEdge (h : m.Marks) (a b : VertexId) (curve : Option Int) :
    (m.insertFeatureEdge a b curve).1.Marks := by
  rcases insertFeatureEdge_cases m a b curve with ⟨e, _, hins⟩ | ⟨_, hins⟩
  · rw [hins]
    exact h
  · rw [hins]
    refine h.pushEdge (x := featureEdge a b curve) (fun e => ?_) _
    rw [ExtTreeSet.mem_insert, Nat.compare_eq_eq]
    simp [featureEdge, eq_comm]

theorem Traced.insertFeatureEdge {seen : List (Triple VertexId × TriangleId)}
    {rest : List ((VertexId × VertexId) × TriangleId)} (h : m.Traced seen rest) (a b : VertexId)
    (curve : Option Int) : (m.insertFeatureEdge a b curve).1.Traced seen rest := by
  rcases insertFeatureEdge_cases m a b curve with ⟨e, _, hins⟩ | ⟨hnone, hins⟩
  · rw [hins]
    exact h
  · rw [hins]
    have hpush := h.pushEdge (x := featureEdge a b curve) (edgeKey_fst_le a b) hnone
    exact { hpush with tabled := { hpush.tabled with }, sided := { hpush.sided with } }

theorem Kept.insertFeatureEdge (h : m.Kept) (a b : VertexId) (curve : Option Int) :
    (m.insertFeatureEdge a b curve).1.Kept where
  traced := by
    obtain ⟨seen, rest, hseen⟩ := h.traced
    exact ⟨seen, rest, hseen.insertFeatureEdge a b curve⟩
  marks := h.marks.insertFeatureEdge a b curve

omit [Scalar α] in
/-- a mesh with nothing derived -/
theorem marks_of_empty (features : m.featureEdges = ∅) (edges : m.edges = #[])
    (stars : m.featureStars = ∅) : m.Marks where
  feature := by
    intro e
    rw [features]
    refine ⟨fun he => absurd he ExtTreeSet.not_mem_empty, fun ⟨x, hx, _⟩ => ?_⟩
    rw [edges] at hx
    cases hx
  star_lt := by
    intro v es hes
    rw [stars, ExtTreeMap.getElem?_empty] at hes
    cases hes

theorem traced_clearTopology (m : Mesh α) : m.clearTopology.Traced [] [] :=
  traced_nil (tabled_of_nil rfl rfl rfl) rfl fun hx => by cases hx

theorem kept_clearTopology (m : Mesh α) : m.clearTopology.Kept where
  traced := ⟨[], [], traced_clearTopology m⟩
  marks := marks_of_empty rfl rfl rfl

theorem kept_given (m : Mesh α) : m.given.Kept where
  traced := ⟨[], [], traced_nil (tabled_given m) rfl fun hx => by cases hx⟩
  marks := marks_of_empty rfl rfl rfl

omit [Scalar α] in
/-- an update of the feature incidence completes -/
theorem Kept.updateFeatureIncidence (h : m.Kept) :
    ∃ m', m.updateFeatureIncidence = .ok m' ∧ m'.Kept := by
  obtain ⟨stars, hok, hsync⟩ := updateFeatureIncidence_total h.marks.lt_size
  obtain ⟨seen, rest, hseen⟩ := h.traced
  exact ⟨_, hok, {
    traced := ⟨seen, rest,
      { hseen with tabled := { hseen.tabled with }, sided := { hseen.sided with } }⟩
    marks := ⟨h.marks.feature, fun hes e he => h.marks.lt_size e (hsync.mem_features hes e he)⟩ }⟩

/-- an update of the edges leaves its trace, completed or not -/
theorem Kept.updateEdges (h : m.Kept) : (meshAfter m.updateEdges).Kept := by
  obtain ⟨_, _, hseen⟩ := h.traced
  rcases updateEdges_cases hseen.tabled h.marks with
    ⟨last, hok, hlast⟩ | ⟨stopped, pre, x, post, hstop, hsplit, hhalted⟩
  · rw [hok]
    exact ⟨⟨_, [], hlast.adjacent.traced hlast.tabled⟩, hlast.marks⟩
  · rw [hstop]
    obtain ⟨rest, hrest⟩ := hhalted.traced hsplit
    obtain ⟨_, _, hjoin, _⟩ := hhalted
    exact ⟨⟨pre, rest, hrest⟩, hjoin.marks h.marks⟩

theorem Kept.updateNormals (h : m.Kept) : (meshAfter m.updateNormals).Kept :=
  h.of_clearNormals (editsNormals_updateNormals m)

theorem Kept.markLine (h : m.Kept) (line : Line) : (meshAfter (m.markLine line)).Kept := by
  obtain ⟨seen, rest, hseen⟩ := h.traced
  cases he : m.edgeIndex[edgeKey line.ends.1 line.ends.2]? with
  | some e =>
    rw [markLine_eq hseen.tabled he]
    exact ⟨⟨seen, rest, hseen.of_outline (outline_flagged m e line.curve)⟩,
      h.marks.flagged (hseen.tabled.lt_size he) line.curve⟩
  | none =>
    unfold Mesh.markLine findEdge?
    rw [he]
    exact h

/-- a derivation leaves its trace, completed or not -/
theorem kept_deriveTopology (m : Mesh α) : (meshAfter m.deriveTopology).Kept := by
  have incidence : ∀ m : Mesh α, m.Kept → (meshAfter (leaving m m.updateFeatureIncidence)).Kept := by
    intro m h
    obtain ⟨m', hok, hkept⟩ := h.updateFeatureIncidence
    rw [hok]
    exact hkept
  have lines : ∀ m : Mesh α, m.Kept → (meshAfter m.markFeatureLines).Kept :=
    fun m h => meshAfter_foldlM (fun _ line hm => hm.markLine line) _ h
  exact meshAfter_bind (kept_given m).updateEdges fun _ h =>
    meshAfter_bind h.updateNormals fun _ h => meshAfter_bind (lines _ h) incidence

theorem kept_of_copy (hok : m.copy = .ok m') : m'.Kept := by
  unfold Mesh.copy at hok
  exact meshAfter_of_ok (mapError_eq_ok_iff.mp hok) (kept_deriveTopology _)

/-! ## the given part -/

/-- an update of the edges leaves the given part alone, completed or not -/
theorem Kept.given_updateEdges (h : m.Kept) : (meshAfter m.updateEdges).given = m.given := by
  obtain ⟨_, _, hseen⟩ := h.traced
  rcases updateEdges_cases hseen.tabled h.marks with
    ⟨last, hok, hlast⟩ | ⟨stopped, _, _, _, hstop, _, _, _, hjoin, _⟩
  · rw [hok]
    exact (congrArg given hlast.frame :)
  · rw [hstop]
    exact given_of_withoutEdges hjoin.frame

theorem given_updateNormals (m : Mesh α) : (meshAfter m.updateNormals).given = m.given :=
  given_of_outline (outline_of_clearNormals (editsNormals_updateNormals m))

theorem given_updateFeatureIncidence (hok : m.updateFeatureIncidence = .ok m') :
    m'.given = m.given := by
  obtain ⟨stars, _, hok⟩ := bind_eq_ok_iff.mp hok
  rw [pure_eq_ok_iff] at hok
  exact hok ▸ rfl

theorem Kept.given_markLine (h : m.Kept) (line : Line) :
    (meshAfter (m.markLine line)).given = m.given := by
  obtain ⟨_, _, hseen⟩ := h.traced
  cases he : m.edgeIndex[edgeKey line.ends.1 line.ends.2]? with
  | some e =>
    rw [markLine_eq hseen.tabled he]
    exact given_of_outline (outline_flagged m e line.curve)
  | none =>
    unfold Mesh.markLine findEdge?
    rw [he]
    rfl

/-- so does a derivation -/
theorem given_deriveTopology (m : Mesh α) : (meshAfter m.deriveTopology).given = m.given := by
  have edges : (meshAfter m.given.updateEdges).Kept ∧
      (meshAfter m.given.updateEdges).given = m.given :=
    ⟨(kept_given m).updateEdges, (kept_given m).given_updateEdges.trans (given_given m)⟩
  have normals : ∀ x : Mesh α, x.Kept ∧ x.given = m.given →
      (meshAfter x.updateNormals).Kept ∧ (meshAfter x.updateNormals).given = m.given :=
    fun x ⟨hkept, hx⟩ => ⟨hkept.updateNormals, (given_updateNormals x).trans hx⟩
  have lines : ∀ x : Mesh α, x.Kept ∧ x.given = m.given →
      (meshAfter x.markFeatureLines).Kept ∧ (meshAfter x.markFeatureLines).given = m.given :=
    fun x hx => meshAfter_foldlM (P := fun y => y.Kept ∧ y.given = m.given)
      (fun y line ⟨hkept, hy⟩ =>
        ⟨hkept.markLine line, (hkept.given_markLine line).trans hy⟩) _ hx
  have incidence : ∀ x : Mesh α, x.Kept ∧ x.given = m.given →
      (meshAfter (leaving x x.updateFeatureIncidence)).Kept ∧
        (meshAfter (leaving x x.updateFeatureIncidence)).given = m.given := by
    intro x ⟨hkept, hx⟩
    obtain ⟨last, hok, hlast⟩ := hkept.updateFeatureIncidence
    rw [hok]
    exact ⟨hlast, (given_updateFeatureIncidence hok).trans hx⟩
  exact (meshAfter_bind edges fun x hx => meshAfter_bind (normals x hx) fun x hx =>
    meshAfter_bind (lines x hx) incidence).2

theorem given_copy (hok : m.copy = .ok m') : m'.given = m.given := by
  unfold Mesh.copy at hok
  exact meshAfter_of_ok (P := fun x => x.given = m.given) (mapError_eq_ok_iff.mp hok)
    (given_deriveTopology _)

end
end Mesh
end DiskCut
