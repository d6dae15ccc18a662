import DiskCut.Proofs.Mesh.Normals

/-!
# Vertex normals as sums

An update of the normals runs over triangles and, for each of them, over its sides; the area normal
of the triangle goes to the first end of every side.  So a vertex collects, in the order of the
triangles, one area normal for each corner that it is.

* `cornersOf m t v`   triangle `t`, once for each of its corners at `v`
* `normalSum m v`     the area normals of the triangles with a corner at `v`, added up
* `Adds m ts m₁ m₂`   the vertex normals of `m₂` are those of `m₁` with area normals of `m` added
* `normal_updateNormals`      after an update each vertex normal is the direction of that sum
* `normalSum_invariant`       what each addition keeps holds of the sum
* `upToDate_of_updateNormals` a second update changes nothing
-/

namespace DiskCut
namespace Mesh
variable {α : Type}

/-- triangle `t`, once for each of its corners at `v` -/
def cornersOf (m : Mesh α) (t : TriangleId) (v : VertexId) : List TriangleId :=
  (m.triangles[t]?.elim [] Triple.toList).flatMap fun c => if c = v then [t] else []

/-- the triangles with a corner at `v`, in order -/
def cornersAt (m : Mesh α) (v : VertexId) : List TriangleId :=
  (List.range m.triangles.size).flatMap (m.cornersOf · v)

section
variable [Scalar α] {m m' m₁ m₂ m₃ : Mesh α}

/-- the area normal of triangle `t` added to `s` -/
def addArea (m : Mesh α) (s : Vec3 α) (t : TriangleId) : Except Fault (Vec3 α) := do
  return s + (← m.areaNormal t)

/-- the area normals of the triangles with a corner at `v`, added up in order -/
def normalSum (m : Mesh α) (v : VertexId) : Except Fault (Vec3 α) :=
  (m.cornersAt v).foldlM m.addArea .zero

/-- what is true of no normals and kept by each addition is true of the sum -/
theorem normalSum_invariant {P : Vec3 α → Prop} {v : VertexId} {s : Vec3 α} (zero : P .zero)
    (keep : ∀ s t n, P s → m.areaNormal t = .ok n → P (s + n)) (h : m.normalSum v = .ok s) :
    P s := by
  refine foldlM_invariant (fun s t next _ hs hstep => ?_) zero h
  obtain ⟨n, hn, hnext⟩ := bind_eq_ok_iff.mp hstep
  exact pure_eq_ok_iff.mp hnext ▸ keep s t n hs hn

/-! ## areas do not depend on normals -/

omit [Scalar α] in
theorem position_eq_fetch (m : Mesh α) (v : VertexId) :
    m.position v = fetch (m.vertices.map (·.position)) v := by
  unfold position fetch
  rw [Array.getElem?_map]
  cases m.vertices[v]? with
  | none => rfl
  | some x => rfl

theorem positions_of_clearNormals (h : m'.clearNormals = m.clearNormals) :
    m'.vertices.map (·.position) = m.vertices.map (·.position) := by
  have e := congrArg (fun m => m.vertices.map (·.position)) h
  simp only [clearNormals, Array.map_map] at e
  exact e

theorem areaNormal_of_clearNormals (h : m'.clearNormals = m.clearNormals) (t : TriangleId) :
    m'.areaNormal t = m.areaNormal t := by
  unfold areaNormal corners triangle
  simp only [position_eq_fetch, positions_of_clearNormals h,
    triangles_of_outline (outline_of_clearNormals h)]

theorem areaNormal_of_corners {t : TriangleId} {vs : Triple VertexId} {p q r : Vec3 α}
    (hvs : m.triangle t = .ok vs) (hp : m.position vs.a = .ok p) (hq : m.position vs.b = .ok q)
    (hr : m.position vs.c = .ok r) : m.areaNormal t = .ok ((q - p).cross (r - p)) := by
  unfold areaNormal corners
  rw [hvs, ok_bind, hp, ok_bind, hq, ok_bind, hr]
  rfl

/-! ## what an update adds -/

/-- the vertex normals of `m₂` are those of `m₁` with the area normals of the triangles `ts v` of
`m` added at each vertex `v` -/
def Adds (m : Mesh α) (ts : VertexId → List TriangleId) (m₁ m₂ : Mesh α) : Prop :=
  ∀ v x, m₂.vertices[v]? = some x →
    ∃ y, m₁.vertices[v]? = some y ∧ (ts v).foldlM m.addArea y.normal = .ok x.normal

theorem Adds.refl (m m₁ : Mesh α) : Adds m (fun _ => []) m₁ m₁ := fun _ x hx => ⟨x, hx, rfl⟩

theorem Adds.trans {ts us : VertexId → List TriangleId} (h : Adds m ts m₁ m₂)
    (h' : Adds m us m₂ m₃) : Adds m (fun v => ts v ++ us v) m₁ m₃ := by
  intro v x hx
  obtain ⟨y, hy, hxy⟩ := h' v x hx
  obtain ⟨z, hz, hyz⟩ := h v y hy
  refine ⟨z, hz, ?_⟩
  rw [List.foldlM_append, hyz]
  exact hxy

/-- a fold adds what its steps add, one after the other -/
theorem Adds.foldlM {β : Type} {f : Mesh α → β → Except (Interrupted α) (Mesh α)}
    {ts : β → VertexId → List TriangleId} {P : Mesh α → Prop}
    (step : ∀ m₁ x m₂, P m₁ → f m₁ x = .ok m₂ → P m₂ ∧ Adds m (ts x) m₁ m₂) (xs : List β)
    (start : P m₁) (h : xs.foldlM f m₁ = .ok m₂) :
    Adds m (fun v => xs.flatMap (ts · v)) m₁ m₂ := by
  induction xs generalizing m₁ with
  | nil => exact pure_eq_ok_iff.mp h ▸ Adds.refl m m₁
  | cons x xs ih =>
    rw [List.foldlM_cons, bind_eq_ok_iff] at h
    obtain ⟨next, hstep, hrest⟩ := h
    obtain ⟨hnext, hadds⟩ := step m₁ x next start hstep
    simp only [List.flatMap_cons]
    exact hadds.trans (ih hnext hrest)

theorem adds_addNormal {n : Vec3 α} {t : TriangleId} {side : VertexId × VertexId}
    (hn : m.areaNormal t = .ok n) (h : addNormal n m₁ side = .ok m₂) :
    Adds m (fun v => if side.1 = v then [t] else []) m₁ m₂ := by
  unfold addNormal at h
  split at h
  · cases h
  rw [leaving_eq_ok_iff] at h
  obtain ⟨edges, _, h⟩ := bind_eq_ok_iff.mp h
  obtain ⟨vertices, hvertices, h⟩ := bind_eq_ok_iff.mp h
  obtain rfl := pure_eq_ok_iff.mp h
  obtain ⟨_, rfl⟩ := alter_eq_ok_iff.mp hvertices
  intro v x hx
  by_cases hv : side.1 = v
  · simp only [Array.getElem?_modify, hv, if_true] at hx ⊢
    obtain ⟨y, hy, rfl⟩ := Option.map_eq_some_iff.mp hx
    refine ⟨y, hy, ?_⟩
    unfold addArea
    rw [List.foldlM_cons, hn]
    rfl
  · simp only [Array.getElem?_modify, hv, if_false] at hx ⊢
    exact ⟨x, hx, rfl⟩

theorem adds_addTriangleNormal {t : TriangleId} (hm : m₁.clearNormals = m.clearNormals)
    (h : m₁.addTriangleNormal t = .ok m₂) : Adds m (m.cornersOf t) m₁ m₂ := by
  unfold addTriangleNormal at h
  obtain ⟨n, hn, h⟩ := bind_eq_ok_iff.mp h
  obtain ⟨vs, hvs, h⟩ := bind_eq_ok_iff.mp h
  rw [leaving_eq_ok_iff, areaNormal_of_clearNormals hm] at hn
  rw [leaving_eq_ok_iff, triangle, fetch_eq_ok_iff,
    triangles_of_outline (outline_of_clearNormals hm)] at hvs
  -- the first ends of the sides are the corners
  have hcorners : m.cornersOf t = fun v =>
      vs.sides.toList.flatMap fun side => if side.1 = v then [t] else [] := by
    funext v
    unfold cornersOf
    rw [hvs]
    rfl
  rw [hcorners]
  exact Adds.foldlM (P := fun _ => True)
    (fun _ _ _ _ hstep => ⟨trivial, adds_addNormal hn hstep⟩) vs.sides.toList trivial h

/-- after an update each vertex normal is the direction of the sum of the area normals around -/
theorem normal_updateNormals (h : m.updateNormals = .ok m') {v : VertexId} {x : Vertex α}
    (hx : m'.vertices[v]? = some x) :
    ∃ s, m.normalSum v = .ok s ∧ x.normal = settleNormal s := by
  unfold updateNormals at h
  obtain ⟨sums, hsums, h⟩ := bind_eq_ok_iff.mp h
  obtain rfl := pure_eq_ok_iff.mp h
  have hadds : Adds m m.cornersAt m.clearNormals sums := by
    refine Adds.foldlM (P := fun s => s.clearNormals = m.clearNormals) ?_ _
      (clearNormals_clearNormals m) hsums
    intro m₁ t m₂ hm hstep
    have hedit := editsNormals_addTriangleNormal m₁ t
    rw [hstep] at hedit
    exact ⟨hedit.trans hm, adds_addTriangleNormal hm hstep⟩
  simp only [settleNormals, Array.getElem?_map] at hx
  obtain ⟨y, hy, rfl⟩ := Option.map_eq_some_iff.mp hx
  obtain ⟨z, hz, hsum⟩ := hadds v y hy
  simp only [clearNormals, Array.getElem?_map] at hz
  obtain ⟨_, _, rfl⟩ := Option.map_eq_some_iff.mp hz
  exact ⟨y.normal, hsum, rfl⟩

/-! ## a second update -/

/-- an update starts from cleared normals, so after one that completed another changes nothing -/
theorem upToDate_of_updateNormals (h : m.updateNormals = .ok m') : m'.updateNormals = .ok m' := by
  have hclear := clearNormals_updateNormals h
  have same : m'.updateNormals = m.updateNormals := by
    unfold updateNormals
    rw [hclear, triangles_of_outline (outline_of_clearNormals hclear)]
  rw [same, h]

end
end Mesh
end DiskCut
