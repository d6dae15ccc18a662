import DiskCut.Proofs.Obtained
import DiskCut.Proofs.FeatureCut.Again
import DiskCut.Proofs.FeatureCut.Copies
import DiskCut.Proofs.Distance.Nearest
import DiskCut.Proofs.Binary64.Lengths

/-!
# The cut and distances

* `IsConstraint m v`      `v` lies on a feature edge or is a singularity, so its distance is zero
* `Cut.edgeLength_eq`     an edge of the cut mesh is as long as the edge that it lies over
* `Cut.isConstraint_origin`, `Cut.isConstraint_copy`
                          the copies of a constraint, and only these, are constraints
* `Cut.reaches_origin`    a path of the cut mesh leads back to a path of the mesh
* `Cut.reaches_copy`      a path of the mesh is matched by one that is no longer, at every copy
* `Cut.nearest_origin`    so a copy is as far from the constraints as its origin
* `distanceToConstraints_cut`   the cut changes no distance, whatever the cap

A path of the mesh may run through vertices that the cut splits.  It is matched from its last
constraint on: behind it there are no copies, and every copy of it starts a path of its own.
-/

namespace DiskCut
open Std
namespace Mesh
variable {α : Type}

/-- vertex `v` lies on a feature edge or is a singularity -/
def IsConstraint (m : Mesh α) (v : VertexId) : Prop :=
  (∃ e, m.IsFeature e ∧ m.IsEnd e v) ∨ v ∈ m.singularities

theorem Coherent.mem_constraints {m : Mesh α} (h : m.Coherent) {v : VertexId} :
    v ∈ m.sourcesIn m.constraints ↔ m.IsConstraint v := by
  unfold constraints IsConstraint
  rw [mem_sourcesIn, List.mem_append, h.starred.mem_featureVertices, ExtTreeMap.mem_keys]
  simp only [h.feature]
  refine and_iff_left_of_imp ?_
  rintro (⟨e, _, hv⟩ | hv)
  · exact h.end_lt hv
  · exact h.singular_lt v hv

namespace Cut
variable {m : Mesh α} {c : FeatureCut α} {s : Separation} (h : Cut m c s) {e e' : EdgeId}
  {t : TriangleId} {u v w x y : VertexId}
include h

/-! ## edges and their lengths -/

omit h in
/-- the ends of an edge of the cut mesh come from the ends of the edge that it lies over -/
theorem joins_origin (he : m.Over c e' e) (hxy : c.mesh.Joins e' x y) :
    ∃ v w, c.originOf x = .ok v ∧ c.originOf y = .ok w ∧ m.Joins e v w := by
  obtain ⟨x', x₀, a, b, hx', hx, ha, hb, hends⟩ := he
  obtain ⟨y', hy', hkey⟩ := hxy
  rw [hx'] at hy'
  obtain rfl := Option.some.inj hy'
  rcases edgeKey_cases x y with hk | hk
  · rw [hkey, hk] at ha hb
    exact ⟨a, b, ha, hb, x₀, hx, hends.symm⟩
  · rw [hkey, hk] at ha hb
    exact ⟨b, a, hb, ha, Joins.symm ⟨x₀, hx, hends.symm⟩⟩

/-- seen from a triangle, the ends of an image are where the corners have moved -/
theorem joins_image (fit : m.Fitted) (he : m.Over c e' e) (ht : c.mesh.Incident e' t)
    (huw : m.Joins e u w) : ∃ x y, m.cornerIn s.triangles t u = some x ∧
      m.cornerIn s.triangles t w = some y ∧ c.mesh.Joins e' x y := by
  obtain ⟨x', _, _, _, hx', _⟩ := id he
  obtain ⟨x₀, hx, _, hside⟩ := (h.over_iff fit hx' ht).mp he
  obtain ⟨p, q, hp, hq, hpq⟩ := sideIn_eq_some_iff.mp hside
  have hjoin : c.mesh.Joins e' p q := ⟨x', hx', hpq.symm⟩
  obtain ⟨y₀, hy, hends⟩ := huw
  rw [hx] at hy
  obtain rfl := Option.some.inj hy
  rcases edgeKey_cases u w with hk | hk
  · rw [hends, hk] at hp hq
    exact ⟨p, q, hp, hq, hjoin⟩
  · rw [hends, hk] at hp hq
    exact ⟨q, p, hq, hp, hjoin.symm⟩

/-- a copy is where its origin is -/
theorem exists_position (hv : c.originOf x = .ok v) :
    ∃ p, c.mesh.position x = .ok p ∧ m.position v = .ok p := by
  obtain ⟨y, z, hy, hz, hposition, _⟩ := h.vertex (h.originOf_eq_ok_iff.mp hv)
  unfold position
  rw [fetch_eq_ok_iff.mpr hy, fetch_eq_ok_iff.mpr hz]
  exact ⟨z.position, rfl, congrArg Except.ok hposition.symm⟩

variable [Scalar α] [Extended α] [LawfulLengths α]

/-- an edge of the cut mesh is as long as the edge that it lies over -/
theorem edgeLength_eq (he : m.Over c e' e) : c.mesh.edgeLength e' = m.edgeLength e := by
  obtain ⟨x', x₀, a, b, hx', hx, ha, hb, hends⟩ := he
  obtain ⟨p, hp', hp⟩ := h.exists_position ha
  obtain ⟨q, hq', hq⟩ := h.exists_position hb
  rw [edgeLength_eq_ok_iff.mpr ⟨x', p, q, hx', hq', hp', rfl⟩]
  rcases edgeKey_cases a b with hk | hk
  · rw [hk] at hends
    exact (edgeLength_eq_ok_iff.mpr ⟨x₀, p, q, hx, hends ▸ hq, hends ▸ hp, rfl⟩).symm
  · rw [hk] at hends
    -- the smaller end comes first, whichever it is
    rw [LawfulLengths.norm_sub_comm]
    exact (edgeLength_eq_ok_iff.mpr ⟨x₀, q, p, hx, hends ▸ hp, hends ▸ hq, rfl⟩).symm

variable (coh : m.Coherent)
include coh

theorem road_origin {l : α} (hxy : c.mesh.Road x y l) :
    ∃ v w, c.originOf x = .ok v ∧ c.originOf y = .ok w ∧ m.Road v w l := by
  obtain ⟨e', hjoin, hl⟩ := hxy
  obtain ⟨e, he⟩ := h.exists_over coh.toFitted hjoin.isEnd_left.lt_size
  obtain ⟨v, w, hv, hw, hjoin'⟩ := joins_origin he hjoin
  exact ⟨v, w, hv, hw, e, hjoin', (h.edgeLength_eq he).symm.trans hl⟩

/-! ## constraints -/

omit [Scalar α] [Extended α] [LawfulLengths α] in
theorem isConstraint_origin (hx : c.mesh.IsConstraint x) (hv : c.originOf x = .ok v) :
    m.IsConstraint v := by
  rcases hx with ⟨e', hfeature, hend⟩ | hsingular
  · obtain ⟨t, ht⟩ := h.coherent.exists_incident hfeature.lt_size
    obtain ⟨e, he⟩ := h.exists_over coh.toFitted hfeature.lt_size
    obtain ⟨v', hend', hcorner⟩ := (h.isEnd_iff_of_over coh he ht).mp hend
    rw [h.originOf_of_cornerIn coh.toFitted hcorner] at hv
    obtain rfl := Except.ok.inj hv
    exact .inl ⟨e, (h.isFeature_iff_of_over coh he).mp hfeature, hend'⟩
  · rw [h.singularities] at hsingular
    rw [h.originOf_eq_ok_iff, h.separated.old (coh.singular_lt x hsingular)] at hv
    rw [← Option.some.inj hv]
    exact .inr hsingular

omit [Scalar α] [Extended α] [LawfulLengths α] in
/-- a vertex with feature fans is an end of a feature edge, and so is each of its copies -/
theorem isConstraint_of_reached (hsome : ∃ t, (t, v) ∈ s.reached) (hx : c.originOf x = .ok v) :
    c.mesh.IsConstraint x := by
  obtain ⟨t, ht, hcorner⟩ := h.exists_corner_of_origin hsome (h.originOf_eq_ok_iff.mp hx)
  obtain ⟨u, hfan, e, hfeature, hend, hu⟩ := h.mem_reached_iff.mp ht
  obtain ⟨e', he, hu'⟩ := h.exists_image coh.toFitted hu
  rw [h.separated.same ht hfan] at hcorner
  exact .inl ⟨e', (h.isFeature_iff_of_over coh he).mpr hfeature,
    (h.isEnd_iff_of_over coh he hu').mpr ⟨v, hend, hcorner⟩⟩

omit [Scalar α] [Extended α] [LawfulLengths α] in
theorem isConstraint_copy (hv : m.IsConstraint v) (hx : c.originOf x = .ok v) :
    c.mesh.IsConstraint x := by
  by_cases hsome : ∃ t, (t, v) ∈ s.reached
  · exact h.isConstraint_of_reached coh hsome hx
  · rcases hv with ⟨e, hfeature, hend⟩ | hsingular
    · obtain ⟨t, ht⟩ := coh.exists_incident hfeature.lt_size
      exact absurd ⟨t, h.seen hfeature ht hend⟩ hsome
    · rw [h.eq_of_origin (not_exists.mp hsome) (h.originOf_eq_ok_iff.mp hx)]
      exact .inr (h.singularities.symm ▸ hsingular)

/-! ## paths -/

/-- a path of the cut mesh leads back to a path of the mesh -/
theorem reaches_origin {cap : Option α} {d : α}
    (hreach : Reaches c.mesh.Road cap c.mesh.IsConstraint x d) :
    ∀ v, c.originOf x = .ok v → Reaches m.Road cap m.IsConstraint v d := by
  induction hreach with
  | source hx => exact fun v hv => .source (h.isConstraint_origin coh hx hv)
  | extend _ hroad hwithin hfinite ih =>
    intro w hw
    obtain ⟨v, w', hv, hw', hroad'⟩ := h.road_origin coh hroad
    obtain rfl := Except.ok.inj (hw.symm.trans hw')
    exact (ih v hv).extend hroad' hwithin hfinite

/-- a path of the mesh is matched at every copy of its end by one that adds up to no more -/
theorem reaches_copy {cap : Option α} {d : α} (hreach : Reaches m.Road cap m.IsConstraint v d) :
    ∀ x, c.originOf x = .ok v →
      ∃ d', NoMore d' d ∧ Reaches c.mesh.Road cap c.mesh.IsConstraint x d' := by
  induction hreach with
  | source hv => exact fun x hx => ⟨0.0, .refl _, .source (h.isConstraint_copy coh hv hx)⟩
  | @extend u w d l hu hroad hwithin hfinite ih =>
    intro x hx
    have hl := (measured_road m).isLength hroad hfinite
    have hd := hu.isLength (measured_road m)
    by_cases hconstraint : c.mesh.IsConstraint x
    · exact ⟨0.0, (hd.add hl).zero_noMore, .source hconstraint⟩
    · -- the end has no feature fan, so it is its only copy and its corners have not moved
      have hnone : ∀ t, (t, w) ∉ s.reached :=
        fun t ht => hconstraint (h.isConstraint_of_reached coh ⟨t, ht⟩ hx)
      obtain rfl := h.eq_of_origin hnone (h.originOf_eq_ok_iff.mp hx)
      obtain ⟨e, hjoin, hlength⟩ := hroad
      obtain ⟨t, ht⟩ := coh.exists_incident hjoin.isEnd_left.lt_size
      obtain ⟨e', he, ht'⟩ := h.exists_image coh.toFitted ht
      obtain ⟨y, z, hy, hz, hjoin'⟩ := h.joins_image coh.toFitted he ht' hjoin
      rw [h.separated.kept (coh.isCorner_of_incident ht hjoin.isEnd_right) (hnone t)] at hz
      obtain rfl := Option.some.inj hz
      obtain ⟨d', hle, hreach⟩ := ih y (h.originOf_of_cornerIn coh.toFitted hy)
      have hd' := hreach.isLength (measured_road c.mesh)
      have hsum := LawfulLengths.add_noMore_add hd' hd hl hle
      refine ⟨d' + l, hsum, hreach.extend ⟨e', hjoin', (h.edgeLength_eq he).trans hlength⟩ ?_ ?_⟩
      · exact beyond_mono (hd'.add hl) (hd.add hl) hsum hwithin
      · exact (hd'.add hl).lt_of_noMore_of_lt (hd.add hl) isLength_infinity hsum hfinite

/-- a copy is as far from the nearest constraint as its origin -/
theorem nearest_origin {cap : Option α} {d : α}
    (hnear : Nearest c.mesh.Road cap c.mesh.IsConstraint x d) (hv : c.originOf x = .ok v) :
    Nearest m.Road cap m.IsConstraint v d where
  least := by
    intro d' hreach
    obtain ⟨d'', hle, hreach'⟩ := h.reaches_copy coh hreach x hv
    exact (hnear.least d'' hreach').trans hle
  attained := hnear.attained.imp id fun hd => h.reaches_origin coh hd v hv

end Cut

variable [Scalar α] [Extended α] [LawfulLengths α] {m : Mesh α}

theorem Coherent.distanceToConstraints_nearest (h : m.Coherent) (cap : Option α) :
    ∃ f, m.distanceToConstraints cap = .ok f ∧ ∀ v < m.vertices.size,
      ∃ d, f.distance v = .ok d ∧ Nearest m.Road cap m.IsConstraint v d := by
  have hsources : (· ∈ m.sourcesIn m.constraints) = m.IsConstraint :=
    funext fun v => propext h.mem_constraints
  obtain ⟨f, hf, _, _, hnearest⟩ := h.edgeGraph.distancesFrom_nearest m.constraints cap
  exact ⟨f, hf, hsources ▸ hnearest⟩

/-- the cut changes no distance from the constraints -/
theorem Cut.distances_eq {c : FeatureCut α} {s : Separation} (h : Cut m c s) (coh : m.Coherent)
    (cap : Option α) : ∃ f g, c.mesh.distanceToConstraints cap = .ok f ∧
      m.distanceToConstraints cap = .ok g ∧ ∀ x < c.mesh.vertices.size, ∃ v d,
        c.originOf x = .ok v ∧ f.distance x = .ok d ∧ g.distance v = .ok d := by
  obtain ⟨f, hf, hnear⟩ := h.coherent.distanceToConstraints_nearest cap
  obtain ⟨g, hg, hnear'⟩ := coh.distanceToConstraints_nearest cap
  refine ⟨f, g, hf, hg, fun x hx => ?_⟩
  obtain ⟨v, hv⟩ : ∃ v, s.origin[x]? = some v := ⟨_, Array.getElem?_eq_getElem (h.size ▸ hx)⟩
  have horigin := h.originOf_eq_ok_iff.mpr hv
  obtain ⟨d, hd, hleast⟩ := hnear x hx
  obtain ⟨d', hd', hleast'⟩ := hnear' v (h.separated.origin_lt coh.toFitted hv)
  refine ⟨v, d, horigin, hd, ?_⟩
  rw [hd', (h.nearest_origin coh hleast horigin).unique (measured_road m) hleast']

/-- the distances of the cut mesh are computed and are those of the mesh, each vertex as far from
the features and singularities as the vertex that it comes from, to the last bit -/
theorem distanceToConstraints_cut {m : Mesh Float} (h : Obtained m) (cap : Option Float) :
    ∃ c f g, m.cutAlongFeatures = .ok c ∧ c.mesh.distanceToConstraints cap = .ok f ∧
      m.distanceToConstraints cap = .ok g ∧ ∀ x < c.mesh.vertices.size, ∃ v d,
        c.originOf x = .ok v ∧ f.distance x = .ok d ∧ g.distance v = .ok d := by
  obtain ⟨c, s, hc, hcut⟩ := h.cut
  obtain ⟨f, g, hf, hg, heq⟩ := hcut.distances_eq h.coherent cap
  exact ⟨c, f, g, hc, hf, hg, heq⟩

theorem distances_threeTriangles : ∃ m, threeTriangles.result = .ok m ∧
    ∃ c f g, m.cutAlongFeatures = .ok c ∧ c.mesh.distanceToConstraints (some 0.5) = .ok f ∧
      m.distanceToConstraints (some 0.5) = .ok g ∧ ∀ x < c.mesh.vertices.size, ∃ v d,
        c.originOf x = .ok v ∧ f.distance x = .ok d ∧ g.distance v = .ok d := by
  obtain ⟨m, hm, _⟩ := threeTriangles_ok
  exact ⟨m, hm, distanceToConstraints_cut (.ofTriangles hm) (some 0.5)⟩

end Mesh
end DiskCut
