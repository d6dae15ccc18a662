import Mathlib.Analysis.SpecialFunctions.Trigonometric.Complex
import DiskCut.Proofs.FeatureCut.Frames
import DiskCut.Proofs.Mesh.Accepted
import DiskCut.Proofs.Frame.Orthonormal
import DiskCut.Proofs.Mesh.NormalSums

/-!
# Frames on curved meshes

A vertex normal is an average over the triangles around, so on a curved mesh the edges at a vertex
need not be perpendicular to it.  The axes of a frame have length one all the same, and the tangent
is perpendicular to the two others; the inner normal and the normal are not in general.

* `farEnds`, `bundleAt?_eq`   the topology that a frame depends on, apart from the positions
* `bundle?_eq_some_iff`, `mem_darbouxFrames`   the directions and the frames that come of them
* `proper_of_bundleAt?`       with the normals up to date the directions are proper
* `Planar`                    all vertices lie in a plane, to which then the normals are perpendicular
* `FramedBy d f`              how far the frame of the directions `d` is from orthonormal
* `darbouxFrames_tilted`      the frames of a mesh, planar or curved
* `bentSquare`                a mesh on which an inner normal is not perpendicular to the normal
-/

namespace DiskCut
namespace Mesh

/-! ## what a frame is computed from -/

section
variable {α : Type} {m : Mesh α} {v : VertexId}

/-- the other ends of the two feature edges at `v` and of the reference edge -/
def farEnds (m : Mesh α) (v : VertexId) : Except Fault (Triple VertexId) :=
  match m.featureEdgesAt v with
  | [e₁, e₂] => do
    match ← m.trianglesAt e₁ with
    | [t] =>
      match ← m.referenceEdge? v e₁ (← m.sidesOf t).toList with
      | some reference =>
        return ⟨(← m.edge e₁).opposite v, (← m.edge e₂).opposite v, reference.opposite v⟩
      | none => .error (.mesh (.missingReferenceEdge v))
    | _ => .error (.mesh (.notSplitAlongFeatures v))
  | es => .error (.mesh (.featureValence v es.length))

variable [Scalar α]

/-- the topology at `v` is looked up first, and then the positions -/
theorem bundleAt?_eq (m : Mesh α) (v : VertexId) :
    m.bundleAt? v = m.farEnds v >>= fun ends => m.bundle? v ends.a ends.b ends.c := by
  unfold bundleAt? farEnds
  match m.featureEdgesAt v with
  | [] | [_] | _ :: _ :: _ :: _ => rfl
  | [e₁, e₂] =>
    dsimp only
    cases m.trianglesAt e₁ with
    | error fault => rfl
    | ok ts =>
      match ts with
      | [] | _ :: _ :: _ => rfl
      | [t] =>
        simp only [ok_bind]
        cases m.sidesOf t with
        | error fault => rfl
        | ok sides =>
          simp only [ok_bind]
          cases m.referenceEdge? v e₁ sides.toList with
          | error fault => rfl
          | ok reference =>
            cases reference with
            | none => rfl
            | some x =>
              simp only [ok_bind]
              cases m.edge e₁ with
              | error fault => rfl
              | ok x₁ =>
                cases m.edge e₂ with
                | error fault => rfl
                | ok x₂ => rfl

theorem directionTo?_eq_some_iff {p d : Vec3 α} :
    m.directionTo? p v = .ok (some d) ↔ ∃ q, m.position v = .ok q ∧ (q - p).unit? = some d := by
  unfold directionTo?
  simp only [bind_eq_ok_iff, pure_eq_ok_iff]

/-- directions at `v` are all those of vectors that have one -/
theorem bundle?_eq_some_iff {a₁ a₂ a₃ : VertexId} {b : Bundle α} :
    m.bundle? v a₁ a₂ a₃ = .ok (some b) ↔ ∃ x, m.vertices[v]? = some x ∧ x.normal = b.normal ∧
      m.directionTo? x.position a₁ = .ok (some b.first) ∧
      m.directionTo? x.position a₂ = .ok (some b.second) ∧
      m.directionTo? x.position a₃ = .ok (some b.reference) ∧
      (b.normal.cross b.first).unit? = some b.side := by
  unfold bundle?
  constructor
  · intro h
    obtain ⟨p, hp, h⟩ := bind_eq_ok_iff.mp h
    obtain ⟨x, hx, h⟩ := bind_eq_ok_iff.mp h
    obtain ⟨y, hy, rfl⟩ := map_eq_ok_iff.mp hp
    obtain rfl := Except.ok.inj (hx.symm.trans hy)
    obtain ⟨_ | d₁, hd₁, h⟩ := bind_eq_ok_iff.mp h
    · cases h
    obtain ⟨_ | d₂, hd₂, h⟩ := bind_eq_ok_iff.mp h
    · cases h
    obtain ⟨_ | d, hd, h⟩ := bind_eq_ok_iff.mp h
    · cases h
    cases hside : (x.normal.cross d₁).unit? with
    | none =>
      simp only [hside] at h
      cases h
    | some side =>
      simp only [hside] at h
      obtain rfl := Option.some.inj (pure_eq_ok_iff.mp h)
      exact ⟨x, fetch_eq_ok_iff.mp hx, rfl, hd₁, hd₂, hd, hside⟩
  · rintro ⟨x, hx, hnormal, hfirst, hsecond, hreference, hside⟩
    have hp : m.position v = .ok x.position := map_eq_ok_iff.mpr ⟨x, fetch_eq_ok_iff.mpr hx, rfl⟩
    rw [hp, fetch_eq_ok_iff.mpr hx]
    simp only [ok_bind, hfirst, hsecond, hreference, hside, hnormal]
    rfl

/-- a list of frames has one for each feature vertex, the world frame where there are no
directions -/
theorem mem_darbouxFrames [Trig α] {frames : List (VertexId × Frame α)}
    (hok : m.darbouxFrames.result = .ok frames) {f : Frame α} :
    (v, f) ∈ frames ↔ v ∈ m.featureVertices ∧
      ∃ d, m.bundleAt? v = .ok d ∧ d.elim .world Bundle.frame = f := by
  unfold darbouxFrames at hok
  rw [Logged.result_mapM] at hok
  rw [mem_mapM_iff hok]
  constructor
  · rintro ⟨u, hu, hframe⟩
    rw [result_frameAt] at hframe
    obtain ⟨d, hd, h⟩ := bind_eq_ok_iff.mp hframe
    obtain ⟨rfl, rfl⟩ := Prod.mk.inj (Except.ok.inj h)
    exact ⟨hu, d, hd, rfl⟩
  · rintro ⟨hv, d, hd, rfl⟩
    refine ⟨v, hv, ?_⟩
    rw [result_frameAt, hd]
    rfl

theorem exists_frame [Trig α] {frames : List (VertexId × Frame α)}
    (hok : m.darbouxFrames.result = .ok frames) (hv : v ∈ m.featureVertices) :
    ∃ f, (v, f) ∈ frames := by
  unfold darbouxFrames at hok
  rw [Logged.result_mapM, mapM_eq_ok_iff] at hok
  obtain ⟨i, hi⟩ := List.mem_iff_getElem?.mp hv
  obtain ⟨⟨u, f⟩, hx, hframe⟩ := exists_of_forall₂ hok hi
  obtain rfl := fst_of_frameAt hframe
  exact ⟨f, List.mem_of_getElem? hx⟩

end

/-! ## meshes over the real numbers -/

section
variable {m : Mesh ℝ} {v : VertexId} {b : Bundle ℝ}

/-- the direction of a sum of normals has length one, if there is a side to it -/
theorem settleNormal_dot_self {s d side : Vec3 ℝ}
    (hside : ((settleNormal s).cross d).unit? = some side) :
    (settleNormal s).dot (settleNormal s) = 1 := by
  obtain ⟨_, hne⟩ := Vec3.unit?_eq_some hside
  have happart := Vec3.dot_sq_lt hne
  unfold settleNormal at happart ⊢
  cases hs : s.unit? with
  | none =>
    rw [hs, Option.getD_none, Vec3.dot_comm, Vec3.dot_zero, Vec3.dot_zero] at happart
    norm_num at happart
  | some n =>
    obtain ⟨rfl, hlong⟩ := Vec3.unit?_eq_some hs
    exact Vec3.unit_dot_unit hlong

theorem directionTo?_dot_self {p d : Vec3 ℝ} {u : VertexId}
    (h : m.directionTo? p u = .ok (some d)) : d.dot d = 1 := by
  obtain ⟨q, _, hd⟩ := directionTo?_eq_some_iff.mp h
  obtain ⟨rfl, hlong⟩ := Vec3.unit?_eq_some hd
  exact Vec3.unit_dot_unit hlong

/-- with the normals up to date, directions at a vertex are proper -/
theorem proper_of_bundleAt? (upToDate : m.updateNormals = .ok m)
    (h : m.bundleAt? v = .ok (some b)) : b.Proper := by
  rw [bundleAt?_eq] at h
  obtain ⟨ends, _, h⟩ := bind_eq_ok_iff.mp h
  obtain ⟨x, hx, hnormal, hfirst, _, _, hside⟩ := bundle?_eq_some_iff.mp h
  obtain ⟨s, _, hs⟩ := normal_updateNormals upToDate hx
  have hn : b.normal.dot b.normal = 1 := by
    rw [← hnormal, hs] at hside ⊢
    exact settleNormal_dot_self hside
  have hd : b.first.dot b.first = 1 := directionTo?_dot_self hfirst
  obtain ⟨hunit, hlong⟩ := Vec3.unit?_eq_some hside
  exact {
    normal := hn
    first := hd
    side := by rw [hunit, Vec3.unit_dot_unit hlong]
    side_normal := by
      rw [hunit, Vec3.dot_comm, Vec3.dot_unit, Vec3.dot_comm, Vec3.cross_dot_left, zero_mul]
    side_first := by
      rw [hunit, Vec3.dot_comm, Vec3.dot_unit, Vec3.dot_comm, Vec3.cross_dot_right, zero_mul]
    apart := by
      have happart := Vec3.dot_sq_lt hlong
      rwa [hn, hd, one_mul, Vec3.dot_comm] at happart }

/-! ## planar meshes -/

/-- all vertices lie in a plane, which is perpendicular to `u` -/
def LiesAcross (m : Mesh ℝ) (u : Vec3 ℝ) : Prop :=
  u ≠ .zero ∧ ∃ c, ∀ x ∈ m.vertices, u.dot x.position = c

/-- all vertices lie in a plane -/
def Planar (m : Mesh ℝ) : Prop := ∃ u, m.LiesAcross u

section
variable {u : Vec3 ℝ} (h : m.LiesAcross u)
include h

/-- what leads from vertex to vertex stays in the plane -/
theorem LiesAcross.dot_sub {p q : Vec3 ℝ} {a b : VertexId} (hp : m.position a = .ok p)
    (hq : m.position b = .ok q) : u.dot (q - p) = 0 := by
  obtain ⟨_, c, hc⟩ := h
  have on : ∀ {w : VertexId} {r : Vec3 ℝ}, m.position w = .ok r → u.dot r = c := by
    intro w r hr
    obtain ⟨x, hx, rfl⟩ := map_eq_ok_iff.mp hr
    exact hc x (Array.mem_of_getElem? (fetch_eq_ok_iff.mp hx))
  rw [Vec3.dot_sub, on hp, on hq, sub_self]

theorem LiesAcross.dot_areaNormal {t : TriangleId} {n d : Vec3 ℝ} (hd : u.dot d = 0)
    (hn : m.areaNormal t = .ok n) : d.dot n = 0 := by
  unfold areaNormal corners at hn
  simp only [bind_eq_ok_iff, pure_eq_ok_iff] at hn
  obtain ⟨_, ⟨_, _, p, hp, q, hq, r, hr, rfl⟩, rfl⟩ := hn
  exact Vec3.triple_eq_zero h.1 (h.dot_sub hp hq) (h.dot_sub hp hr) hd

/-- the vertex normals are perpendicular to the plane -/
theorem LiesAcross.dot_normal (upToDate : m.updateNormals = .ok m) {x : Vertex ℝ} {d : Vec3 ℝ}
    (hx : m.vertices[v]? = some x) (hd : u.dot d = 0) : d.dot x.normal = 0 := by
  obtain ⟨s, hs, hnormal⟩ := normal_updateNormals upToDate hx
  have hsum : d.dot s = 0 := by
    refine normalSum_invariant (P := fun s => d.dot s = 0) (Vec3.dot_zero d) ?_ hs
    intro s t n hs hn
    rw [Vec3.dot_add, hs, h.dot_areaNormal hd hn, add_zero]
  rw [hnormal, settleNormal]
  cases hunit : s.unit? with
  | none => exact Vec3.dot_zero d
  | some n =>
    rw [(Vec3.unit?_eq_some hunit).1, Option.getD_some, Vec3.dot_unit, hsum, zero_mul]

/-- and so the first edge at a vertex is perpendicular to its normal -/
theorem LiesAcross.first_dot_normal (upToDate : m.updateNormals = .ok m)
    (hb : m.bundleAt? v = .ok (some b)) : b.first.dot b.normal = 0 := by
  rw [bundleAt?_eq] at hb
  obtain ⟨ends, _, hb⟩ := bind_eq_ok_iff.mp hb
  obtain ⟨x, hx, hnormal, hfirst, _⟩ := bundle?_eq_some_iff.mp hb
  obtain ⟨q, hq, hd⟩ := directionTo?_eq_some_iff.mp hfirst
  have hp : m.position v = .ok x.position := map_eq_ok_iff.mpr ⟨x, fetch_eq_ok_iff.mpr hx, rfl⟩
  rw [← hnormal]
  apply h.dot_normal upToDate hx
  rw [(Vec3.unit?_eq_some hd).1, Vec3.dot_unit, h.dot_sub hp hq, zero_mul]

end

end

/-! ## bent squares -/

/-- a square with its boundary as features, whose corners 1 and 3 are lifted by `z` -/
noncomputable def bentSquare (z : ℝ) : Logged ℝ (Mesh ℝ) :=
  ofTriangles #[⟨0, 0, 0⟩, ⟨4, 0, z⟩, ⟨3, 4, 0⟩, ⟨0, 4, z⟩] [⟨0, 1, 2⟩, ⟨0, 2, 3⟩]
    [(0, 1), (1, 2), (2, 3), (3, 0)]

/-- what the frames of a bent square are computed from -/
structure IsBentSquare (z : ℝ) (m : Mesh ℝ) : Prop where
  upToDate : m.updateNormals = .ok m
  positions : m.vertices.map (·.position) = #[⟨0, 0, 0⟩, ⟨4, 0, z⟩, ⟨3, 4, 0⟩, ⟨0, 4, z⟩]
  triangles_eq : m.triangles = #[⟨0, 1, 2⟩, ⟨0, 2, 3⟩]
  cornersAt_zero : m.cornersAt 0 = [0, 1]
  farEnds_zero : m.farEnds 0 = .ok ⟨1, 3, 2⟩
  featureVertices_eq : m.featureVertices = [0, 1, 2, 3]
  farEnds_lt : ∀ v ∈ m.featureVertices, ∃ ends, m.farEnds v = .ok ends ∧ ∀ u ∈ ends.toList, u < 4

/-- the topology of a bent square, which is looked up without looking at its positions -/
def isSquare (m : Mesh ℝ) : Bool :=
  m.triangles == #[⟨0, 1, 2⟩, ⟨0, 2, 3⟩] && m.cornersAt 0 == [0, 1] &&
  m.featureVertices == [0, 1, 2, 3] && yields (m.farEnds 0) (· == ⟨1, 3, 2⟩) &&
  m.featureVertices.all fun v => yields (m.farEnds v) fun ends => ends.toList.all (· < 4)

theorem bentSquare_ok {z : ℝ}
    (h : yields (bentSquare z).result (fun m₀ => yields m₀.updateNormals isSquare) = true) :
    ∃ m₀ m, (bentSquare z).result = .ok m₀ ∧ m₀.updateNormals = .ok m ∧ IsBentSquare z m := by
  obtain ⟨m₀, hm₀, h⟩ := exists_of_yields h
  obtain ⟨m, hm, h⟩ := exists_of_yields h
  simp only [isSquare, Bool.and_eq_true, beq_iff_eq, List.all_eq_true] at h
  obtain ⟨⟨⟨⟨htriangles, hcorners⟩, hvertices⟩, hends⟩, hall⟩ := h
  have hclear := clearNormals_updateNormals hm
  refine ⟨m₀, m, hm₀, hm, ?_⟩
  exact {
    upToDate := upToDate_of_updateNormals hm
    positions := by
      rw [positions_of_clearNormals hclear]
      apply positions_of_ofTriangles hm₀
      rw [← triangles_of_outline (outline_of_clearNormals hclear), htriangles]
      simp
    triangles_eq := htriangles
    cornersAt_zero := hcorners
    farEnds_zero := by
      obtain ⟨ends, hok, hends⟩ := exists_of_yields hends
      rw [hok, eq_of_beq hends]
    featureVertices_eq := hvertices
    farEnds_lt := by
      intro v hv
      obtain ⟨ends, hok, hends⟩ := exists_of_yields (hall v hv)
      exact ⟨ends, hok, by simpa using hends⟩ }

theorem bentSquare_three : ∃ m₀ m, (bentSquare 3).result = .ok m₀ ∧ m₀.updateNormals = .ok m ∧
    IsBentSquare 3 m :=
  bentSquare_ok (by decide +kernel)

/-- the directions at the first corner of the square that is bent by 3 -/
noncomputable def bentCorner : Bundle ℝ where
  normal := ⟨0, 0, 1⟩
  first := ⟨4 / 5, 0, 3 / 5⟩
  second := ⟨0, 4 / 5, 3 / 5⟩
  reference := ⟨3 / 5, 4 / 5, 0⟩
  side := ⟨0, 1, 0⟩

namespace IsBentSquare
variable {z : ℝ} {m : Mesh ℝ}

theorem position (h : IsBentSquare z m) : m.position 0 = .ok ⟨0, 0, 0⟩ ∧
    m.position 1 = .ok ⟨4, 0, z⟩ ∧ m.position 2 = .ok ⟨3, 4, 0⟩ ∧
    m.position 3 = .ok ⟨0, 4, z⟩ := by
  simp only [position_eq_fetch, h.positions]
  exact ⟨rfl, rfl, rfl, rfl⟩

/-- the square that is not bent -/
theorem planar (h : IsBentSquare 0 m) : m.Planar := by
  refine ⟨⟨0, 0, 1⟩, fun e => ?_, 0, fun x hx => ?_⟩
  · rw [Vec3.zero_eq, Vec3.mk.injEq] at e
    norm_num at e
  · have hmem : x.position ∈ m.vertices.map (·.position) := Array.mem_map_of_mem hx
    rw [h.positions] at hmem
    simp only [List.mem_toArray, List.mem_cons, List.not_mem_nil, or_false] at hmem
    rcases hmem with e | e | e | e <;> norm_num [e, Vec3.dot]

theorem darbouxFrames_ok (h : IsBentSquare z m) :
    ∃ frames, m.darbouxFrames.result = .ok frames := by
  unfold darbouxFrames
  rw [Logged.result_mapM]
  refine mapM_total fun v hv => ?_
  have hsize : m.vertices.size = 4 := by
    rw [← Array.size_map (f := fun x : Vertex ℝ => x.position), h.positions]
    rfl
  have hlt : v < 4 := by
    rw [h.featureVertices_eq] at hv
    simp only [List.mem_cons, List.not_mem_nil, or_false] at hv
    rcases hv with rfl | rfl | rfl | rfl <;> decide
  obtain ⟨ends, hends, hends_lt⟩ := h.farEnds_lt v hv
  obtain ⟨d, hd⟩ : ∃ d, m.bundleAt? v = .ok d := by
    rw [bundleAt?_eq, hends, ok_bind]
    apply bundle?_ok <;> rw [hsize]
    · exact hlt
    all_goals exact hends_lt _ (by simp [Triple.toList])
  exact ⟨_, by rw [result_frameAt, hd]; rfl⟩

section
variable (h : IsBentSquare 3 m)
include h

/-- the area normals of both triangles at the first corner add up to an upright one -/
theorem normalSum_zero : m.normalSum 0 = .ok ⟨0, 0, 28⟩ := by
  obtain ⟨p₀, p₁, p₂, p₃⟩ := h.position
  have t₀ : m.triangle 0 = .ok ⟨0, 1, 2⟩ := by
    rw [triangle, h.triangles_eq]
    rfl
  have t₁ : m.triangle 1 = .ok ⟨0, 2, 3⟩ := by
    rw [triangle, h.triangles_eq]
    rfl
  have area₀ : m.areaNormal 0 = .ok ⟨-12, 9, 16⟩ := by
    rw [areaNormal_of_corners t₀ p₀ p₁ p₂]
    norm_num [Vec3.cross, Vec3.sub_def]
  have area₁ : m.areaNormal 1 = .ok ⟨12, -9, 12⟩ := by
    rw [areaNormal_of_corners t₁ p₀ p₂ p₃]
    norm_num [Vec3.cross, Vec3.sub_def]
  unfold normalSum addArea
  rw [h.cornersAt_zero]
  simp only [List.foldlM_cons, List.foldlM_nil, area₀, area₁, ok_bind, Vec3.zero_eq, Vec3.add_def]
  show Except.ok _ = _
  norm_num

theorem bundleAt?_zero : m.bundleAt? 0 = .ok (some bentCorner) := by
  obtain ⟨p₀, p₁, p₂, p₃⟩ := h.position
  obtain ⟨x, hx, hp⟩ := map_eq_ok_iff.mp p₀
  rw [fetch_eq_ok_iff] at hx
  obtain ⟨s, hs, hnormal⟩ := normal_updateNormals h.upToDate hx
  obtain rfl := Except.ok.inj (h.normalSum_zero.symm.trans hs)
  -- every vector below is a multiple of its direction, by its own length
  have direction : ∀ {v d : Vec3 ℝ} (c : ℝ), v = d.scale c → 1 / 2 ≤ c → d.dot d = 1 →
      v.unit? = some d := fun c hv hc hd =>
    hv ▸ Vec3.unit?_scale hd (epsilon_lt_half.trans_le hc)
  rw [bundleAt?_eq, h.farEnds_zero, ok_bind, bundle?_eq_some_iff]
  simp only [directionTo?_eq_some_iff]
  refine ⟨x, hx, ?_, ⟨_, p₁, direction 5 ?_ ?_ ?_⟩, ⟨_, p₃, direction 5 ?_ ?_ ?_⟩,
    ⟨_, p₂, direction 5 ?_ ?_ ?_⟩, direction (4 / 5) ?_ ?_ ?_⟩
  · have hunit : (⟨0, 0, 28⟩ : Vec3 ℝ).unit? = some ⟨0, 0, 1⟩ := by
      apply direction 28 <;> norm_num [Vec3.scale, Vec3.dot]
    rw [hnormal, settleNormal, hunit]
    rfl
  all_goals norm_num [hp, bentCorner, Vec3.scale, Vec3.dot, Vec3.cross, Vec3.sub_def]

theorem mem_darbouxFrames_zero {frames : List (VertexId × Frame ℝ)}
    (hok : m.darbouxFrames.result = .ok frames) : (0, bentCorner.frame) ∈ frames := by
  rw [mem_darbouxFrames hok, h.featureVertices_eq]
  exact ⟨List.mem_cons_self, some bentCorner, h.bundleAt?_zero, rfl⟩

end
end IsBentSquare

/-! ## frames on a mesh with its normals up to date -/

section
variable {m : Mesh ℝ} {v : VertexId}

/-- what the directions at a vertex, if there are any, say about its frame -/
structure FramedBy (d : Option (Bundle ℝ)) (f : Frame ℝ) : Prop where
  frame_eq : f = d.elim .world Bundle.frame
  /-- axes of length one, a tangent perpendicular to the two others, and these with a product that
  is the tilt of the first edge, turned half way -/
  tilted : f.Tilted (d.elim 0 Bundle.tilt)
  /-- that product vanishes when the first edge is perpendicular to the normal or the second goes
  straight back, and in no other case -/
  orthonormal_iff : f.Orthonormal ↔
    ∀ b ∈ d, b.first.dot b.normal = 0 ∨ b.angleOf b.second = Real.pi

theorem framedBy_of_bundleAt? (upToDate : m.updateNormals = .ok m) {d : Option (Bundle ℝ)}
    (h : m.bundleAt? v = .ok d) : FramedBy d (d.elim .world Bundle.frame) := by
  cases d with
  | none =>
    refine ⟨rfl, Frame.tilted_world, ?_⟩
    rw [Option.elim_none, Frame.tilted_world.orthonormal_iff]
    simp
  | some b =>
    have hproper := proper_of_bundleAt? upToDate h
    refine ⟨rfl, hproper.frame, ?_⟩
    rw [Option.elim_some, hproper.orthonormal_iff]
    simp

/-- With the normals up to date, the frame of every feature vertex is orthonormal but for the tilt of
its inner normal; on a planar mesh it is orthonormal. -/
theorem darbouxFrames_tilted (upToDate : m.updateNormals = .ok m)
    {frames : List (VertexId × Frame ℝ)} (hok : m.darbouxFrames.result = .ok frames) :
    (∀ v ∈ m.featureVertices, ∃ f, (v, f) ∈ frames) ∧
    (∀ v f, (v, f) ∈ frames → ∃ d, m.bundleAt? v = .ok d ∧ FramedBy d f) ∧
    (m.Planar → ∀ v f, (v, f) ∈ frames → f.Orthonormal) := by
  have framed : ∀ v f, (v, f) ∈ frames → ∃ d, m.bundleAt? v = .ok d ∧ FramedBy d f := by
    intro v f hf
    obtain ⟨_, d, hd, rfl⟩ := (mem_darbouxFrames hok).mp hf
    exact ⟨d, hd, framedBy_of_bundleAt? upToDate hd⟩
  refine ⟨fun v hv => exists_frame hok hv, framed, ?_⟩
  rintro ⟨u, hu⟩ v f hf
  obtain ⟨d, hd, hframed⟩ := framed v f hf
  refine hframed.orthonormal_iff.mpr fun b hb => .inl ?_
  exact hu.first_dot_normal upToDate (hd.trans (congrArg _ hb))

end

/-- both parts apply: to a square that is bent and to one that is not -/
theorem tilted_bentSquare :
    (∃ m₀ m frames f, (bentSquare 3).result = .ok m₀ ∧ m₀.updateNormals = .ok m ∧
      m.updateNormals = .ok m ∧ m.darbouxFrames.result = .ok frames ∧ (0, f) ∈ frames ∧
      f.Tilted bentCorner.tilt) ∧
    ∃ m₀ m frames, (bentSquare 0).result = .ok m₀ ∧ m₀.updateNormals = .ok m ∧
      m.updateNormals = .ok m ∧ m.darbouxFrames.result = .ok frames ∧ m.Planar ∧
      ∀ v f, (v, f) ∈ frames → f.Orthonormal := by
  refine ⟨?_, ?_⟩
  · obtain ⟨m₀, m, hm₀, hm, h⟩ := bentSquare_three
    obtain ⟨frames, hok⟩ := h.darbouxFrames_ok
    have hmem := h.mem_darbouxFrames_zero hok
    obtain ⟨d, hd, hframed⟩ := (darbouxFrames_tilted h.upToDate hok).2.1 0 _ hmem
    obtain rfl := Except.ok.inj (h.bundleAt?_zero.symm.trans hd)
    exact ⟨m₀, m, frames, _, hm₀, hm, h.upToDate, hok, hmem, hframed.tilted⟩
  · obtain ⟨m₀, m, hm₀, hm, h⟩ := bentSquare_ok (z := 0) (by decide +kernel)
    obtain ⟨frames, hok⟩ := h.darbouxFrames_ok
    exact ⟨m₀, m, frames, hm₀, hm, h.upToDate, hok, h.planar,
      (darbouxFrames_tilted h.upToDate hok).2.2 h.planar⟩

/-- on the bent square the inner normal at the first corner is not perpendicular to the normal -/
theorem bentSquare_not_orthonormal :
    ∃ m₀ m frames f, (bentSquare 3).result = .ok m₀ ∧ m₀.updateNormals = .ok m ∧
      m.updateNormals = .ok m ∧ m.darbouxFrames.result = .ok frames ∧ (0, f) ∈ frames ∧
      f.inner.dot f.normal ≠ 0 ∧ ¬ f.Orthonormal := by
  obtain ⟨m₀, m, hm₀, hm, h⟩ := bentSquare_three
  obtain ⟨frames, hok⟩ := h.darbouxFrames_ok
  have hproper := proper_of_bundleAt? h.upToDate h.bundleAt?_zero
  have hnot : ¬ bentCorner.frame.Orthonormal := by
    rw [hproper.orthonormal_iff, Bundle.angleOf_eq_pi_iff]
    norm_num [bentCorner, Vec3.dot]
  refine ⟨m₀, m, frames, _, hm₀, hm, h.upToDate, hok, h.mem_darbouxFrames_zero hok, ?_, hnot⟩
  rw [hproper.frame.inner_normal]
  exact mt hproper.frame.orthonormal_iff.mpr hnot

end Mesh
end DiskCut
