import DiskCut.Proofs.Obtained
import Mathlib.Algebra.BigOperators.Group.Finset.Basic

/-!
# One copy for each fan

* `fans m v`            the fans at a vertex, as sets of triangles
* `featureFans m v`     those with a feature edge at the vertex
* `copiesOf c v`        the vertices of the cut mesh that come from `v`
* `FanAt m c v F w`     all triangles of the fan `F` at `v` have the corner `w` in the cut mesh
* `OneCopyPerFan m c`   what a cut does to corners and vertices
* `cutAlongFeatures_copies`   it does so on every mesh that the library gives

The fans at `v` that a walk reached are the feature fans.  Sending one of their triangles to its
fan and to its corner in the cut mesh gives the same partition, and this is how copies are counted.
-/

namespace DiskCut
open Std Finset
namespace Mesh
variable {α : Type}

/-! ## fans as sets -/

open Classical in
/-- the triangles in one fan at `v` with `t` -/
noncomputable def fanOf (m : Mesh α) (v : VertexId) (t : TriangleId) : Finset TriangleId :=
  (range m.triangles.size).filter (m.SameFan v t)

open Classical in
noncomputable def fans (m : Mesh α) (v : VertexId) : Finset (Finset TriangleId) :=
  ((range m.triangles.size).filter (m.IsCorner · v)).image (m.fanOf v)

open Classical in
noncomputable def featureFans (m : Mesh α) (v : VertexId) : Finset (Finset TriangleId) :=
  (m.fans v).filter fun F => ∃ t ∈ F, m.HasRay v t

section
variable {m : Mesh α} {v : VertexId} {t u : TriangleId} {F : Finset TriangleId}

theorem mem_fans : F ∈ m.fans v ↔ ∃ t, m.IsCorner t v ∧ m.fanOf v t = F := by
  unfold fans
  simp only [mem_image, mem_filter, mem_range]
  refine ⟨?_, ?_⟩
  · intro ⟨t, ⟨_, ht⟩, hF⟩
    exact ⟨t, ht, hF⟩
  · intro ⟨t, ht, hF⟩
    exact ⟨t, ⟨ht.lt_size, ht⟩, hF⟩

theorem Fitted.mem_fanOf (h : m.Fitted) (ht : m.IsCorner t v) :
    u ∈ m.fanOf v t ↔ m.SameFan v t u := by
  classical
  unfold fanOf
  rw [mem_filter, mem_range]
  refine ⟨?_, ?_⟩
  · exact fun hu => hu.2
  · intro hu
    exact ⟨(h.isCorner_of_sameFan ht hu).lt_size, hu⟩

theorem Fitted.fanOf_eq_iff (h : m.Fitted) (ht : m.IsCorner t v) (hu : m.IsCorner u v) :
    m.fanOf v t = m.fanOf v u ↔ m.SameFan v t u := by
  refine ⟨?_, ?_⟩
  · intro e
    rw [← h.mem_fanOf ht, e, h.mem_fanOf hu]
    exact .refl
  · intro htu
    ext w
    rw [h.mem_fanOf ht, h.mem_fanOf hu]
    exact ⟨htu.symm.trans, htu.trans⟩

theorem Fitted.mem_featureFans (h : m.Fitted) : F ∈ m.featureFans v ↔
    ∃ t, m.IsCorner t v ∧ m.fanOf v t = F ∧ ∃ u, m.SameFan v t u ∧ m.HasRay v u := by
  classical
  unfold featureFans
  rw [mem_filter, mem_fans]
  refine ⟨?_, ?_⟩
  · intro ⟨⟨t, ht, hF⟩, u, hu, hray⟩
    rw [← hF, h.mem_fanOf ht] at hu
    exact ⟨t, ht, hF, u, hu, hray⟩
  · intro ⟨t, ht, hF, u, hu, hray⟩
    exact ⟨⟨t, ht, hF⟩, u, hF ▸ (h.mem_fanOf ht).mpr hu, hray⟩

end

/-! ## what a cut does -/

open Classical in
/-- the vertices of the cut mesh that come from `v` -/
noncomputable def copiesOf (c : FeatureCut α) (v : VertexId) : Finset VertexId :=
  (range c.mesh.vertices.size).filter fun i => c.originOf i = .ok v

/-- all triangles of the fan `F` at `v` have the vertex `w` of the cut mesh there -/
def FanAt (m : Mesh α) (c : FeatureCut α) (v : VertexId) (F : Finset TriangleId) (w : VertexId) :
    Prop :=
  ∀ t ∈ F, m.cornerIn c.mesh.triangles t v = some w

/-- the cut mesh `c` has one copy of a vertex of `m` for each of its feature fans -/
structure OneCopyPerFan (m : Mesh α) (c : FeatureCut α) : Prop where
  size : c.mesh.triangles.size = m.triangles.size
  /-- every corner comes from the corner at the same place -/
  corner : ∀ (t : TriangleId) (vs : Triple VertexId), m.triangles[t]? = some vs →
    ∃ ws : Triple VertexId, c.mesh.triangles[t]? = some ws ∧ ∀ k, c.originOf (ws.get k) = .ok (vs.get k)
  own : ∀ v < m.vertices.size, c.originOf v = .ok v
  card_copies : ∀ v < m.vertices.size, (copiesOf c v).card = max 1 (m.featureFans v).card
  vertex : ∀ i v, c.originOf i = .ok v → ∃ x y : Vertex α, m.vertices[v]? = some x ∧
    c.mesh.vertices[i]? = some y ∧ y.position = x.position ∧ y.entity = x.entity
  duplicated : c.duplicated = ∑ v ∈ range m.vertices.size, ((m.featureFans v).card - 1)
  together : ∀ v, ∀ F ∈ m.fans v, ∃ w, m.FanAt c v F w
  apart : ∀ v, ∀ F ∈ m.featureFans v, ∀ G ∈ m.featureFans v, F ≠ G →
    ∀ w w', m.FanAt c v F w → m.FanAt c v G w' → w ≠ w'
  /-- of the feature fans exactly one keeps the vertex -/
  keeper : ∀ v, (m.featureFans v).Nonempty → ∃! F, F ∈ m.featureFans v ∧ m.FanAt c v F v
  plain : ∀ v, ∀ F ∈ m.fans v, F ∉ m.featureFans v → m.FanAt c v F v
  /-- a duplicated vertex is a corner of some triangle -/
  used : ∀ i, m.vertices.size ≤ i → i < c.mesh.vertices.size → ∃ t, c.mesh.IsCorner t i

/-! ## counting copies -/

theorem card_image_eq_of_iff {β γ δ : Type} [DecidableEq β] [DecidableEq γ] [DecidableEq δ]
    {S : Finset δ} {f : δ → β} {g : δ → γ} (h : ∀ x ∈ S, ∀ y ∈ S, f x = f y ↔ g x = g y) :
    (S.image f).card = (S.image g).card := by
  induction S using Finset.induction_on with
  | empty => rfl
  | insert a S _ ih =>
    have ih' := ih fun x hx y hy => h x (mem_insert_of_mem hx) y (mem_insert_of_mem hy)
    have hiff : f a ∈ S.image f ↔ g a ∈ S.image g := by
      rw [mem_image, mem_image]
      refine ⟨?_, ?_⟩
      · intro ⟨x, hx, e⟩
        exact ⟨x, hx, (h x (mem_insert_of_mem hx) a (mem_insert_self a S)).mp e⟩
      · intro ⟨x, hx, e⟩
        exact ⟨x, hx, (h x (mem_insert_of_mem hx) a (mem_insert_self a S)).mpr e⟩
    rw [image_insert, image_insert]
    by_cases hf : f a ∈ S.image f
    · rw [insert_eq_of_mem hf, insert_eq_of_mem (hiff.mp hf), ih']
    · rw [card_insert_of_notMem hf, card_insert_of_notMem (mt hiff.mpr hf), ih']

namespace Cut
variable {m : Mesh α} {c : FeatureCut α} {s : Separation} (h : Cut m c s) {v : VertexId}
  {t u : TriangleId} {F : Finset TriangleId}
include h

theorem originOf_eq_ok_iff {i : VertexId} : c.originOf i = .ok v ↔ s.origin[i]? = some v := by
  unfold FeatureCut.originOf
  rw [h.origin, fetch_eq_ok_iff]

/-- the corners that a walk reached are those of the feature fans -/
theorem mem_reached_iff : (t, v) ∈ s.reached ↔ ∃ u, m.SameFan v t u ∧ m.HasRay v u := by
  refine ⟨?_, ?_⟩
  · intro ht
    obtain ⟨u, hray, hfan⟩ := h.separated.ray ht
    exact ⟨u, hfan.symm, hray⟩
  · intro ⟨u, hfan, e, he, hend, hu⟩
    exact h.separated.mem_of_sameFan (h.seen he hu hend) hfan.symm

theorem isCorner_of_mem_reached (ht : (t, v) ∈ s.reached) : m.IsCorner t v := by
  obtain ⟨w, hw, _⟩ := h.separated.placed ht
  exact isCorner_of_cornerIn hw

theorem exists_cornerIn (ht : m.IsCorner t v) : ∃ w, m.cornerIn s.triangles t v = some w := by
  by_cases hreached : (t, v) ∈ s.reached
  · obtain ⟨w, hw, _⟩ := h.separated.placed hreached
    exact ⟨w, hw⟩
  · exact ⟨v, h.separated.kept ht hreached⟩

/-- a vertex without feature fans is its only copy -/
theorem eq_of_origin (hnone : ∀ t, (t, v) ∉ s.reached) {i : VertexId} (hi : s.origin[i]? = some v) :
    i = v := by
  by_cases hlt : i < m.vertices.size
  · rw [h.separated.old hlt] at hi
    exact Option.some.inj hi
  · obtain ⟨t, ht, _⟩ := h.separated.copy (Nat.le_of_not_lt hlt) hi
    exact absurd ht (hnone t)

/-- with feature fans, every copy of a vertex is where one of them is -/
theorem exists_corner_of_origin (hsome : ∃ t, (t, v) ∈ s.reached) {i : VertexId}
    (hi : s.origin[i]? = some v) :
    ∃ t, (t, v) ∈ s.reached ∧ m.cornerIn s.triangles t v = some i := by
  by_cases hlt : i < m.vertices.size
  · rw [h.separated.old hlt] at hi
    obtain ⟨t, ht⟩ := hsome
    rw [Option.some.inj hi]
    exact h.separated.claimed.mp (h.separated.first ht)
  · exact h.separated.copy (Nat.le_of_not_lt hlt) hi

open Classical in
/-- without feature fans a vertex is not copied -/
theorem copiesOf_eq_singleton (hv : v < m.vertices.size) (hnone : ∀ t, (t, v) ∉ s.reached) :
    copiesOf c v = {v} := by
  ext i
  unfold copiesOf
  rw [mem_filter, mem_range, mem_singleton, h.originOf_eq_ok_iff]
  refine ⟨?_, ?_⟩
  · intro ⟨_, hi⟩
    exact h.eq_of_origin hnone hi
  · intro hi
    rw [hi]
    refine ⟨?_, h.separated.old hv⟩
    rw [h.size]
    exact Nat.lt_of_lt_of_le hv h.separated.le_size

open Classical in
/-- with feature fans the copies of a vertex are where the fans are -/
theorem copiesOf_eq_image (hsome : ∃ t, (t, v) ∈ s.reached) :
    copiesOf c v = ((range m.triangles.size).filter fun t => (t, v) ∈ s.reached).image
      fun t => (m.cornerIn s.triangles t v).getD 0 := by
  ext i
  unfold copiesOf
  simp only [mem_filter, mem_range, mem_image, h.originOf_eq_ok_iff]
  refine ⟨?_, ?_⟩
  · intro ⟨_, hi⟩
    obtain ⟨t, ht, hw⟩ := h.exists_corner_of_origin hsome hi
    refine ⟨t, ⟨(h.isCorner_of_mem_reached ht).lt_size, ht⟩, ?_⟩
    rw [hw]
    rfl
  · intro ⟨t, ⟨_, ht⟩, hi⟩
    obtain ⟨w, hw, horigin⟩ := h.separated.placed ht
    rw [hw] at hi
    obtain rfl : w = i := hi
    refine ⟨?_, horigin⟩
    rw [h.size]
    exact (Array.getElem?_eq_some_iff.mp horigin).1

variable (fit : m.Fitted)
include fit

theorem mem_featureFans_iff :
    F ∈ m.featureFans v ↔ ∃ t, (t, v) ∈ s.reached ∧ m.fanOf v t = F := by
  rw [fit.mem_featureFans]
  refine ⟨?_, ?_⟩
  · intro ⟨t, _, hF, hray⟩
    exact ⟨t, h.mem_reached_iff.mpr hray, hF⟩
  · intro ⟨t, ht, hF⟩
    exact ⟨t, h.isCorner_of_mem_reached ht, hF, h.mem_reached_iff.mp ht⟩

/-- a fan is where any of its triangles is -/
theorem fanAt_iff (ht : m.IsCorner t v) {w : VertexId} :
    m.FanAt c v (m.fanOf v t) w ↔ m.cornerIn s.triangles t v = some w := by
  unfold FanAt
  rw [h.triangles]
  refine ⟨?_, ?_⟩
  · intro hall
    exact hall t ((fit.mem_fanOf ht).mpr .refl)
  · intro hw u hu
    have hu := (fit.mem_fanOf ht).mp hu
    by_cases hreached : (t, v) ∈ s.reached
    · rw [← h.separated.same hreached hu]
      exact hw
    · have hno : (u, v) ∉ s.reached := fun hmem =>
        hreached (h.separated.mem_of_sameFan hmem hu.symm)
      rw [h.separated.kept ht hreached] at hw
      rw [h.separated.kept (fit.isCorner_of_sameFan ht hu) hno]
      exact hw

open Classical in
theorem featureFans_eq_image : m.featureFans v
    = ((range m.triangles.size).filter fun t => (t, v) ∈ s.reached).image (m.fanOf v) := by
  ext F
  rw [h.mem_featureFans_iff fit]
  simp only [mem_image, mem_filter, mem_range]
  refine ⟨?_, ?_⟩
  · intro ⟨t, ht, hF⟩
    exact ⟨t, ⟨(h.isCorner_of_mem_reached ht).lt_size, ht⟩, hF⟩
  · intro ⟨t, ⟨_, ht⟩, hF⟩
    exact ⟨t, ht, hF⟩

/-- one copy for each feature fan, and at least one -/
theorem card_copiesOf (hv : v < m.vertices.size) :
    (copiesOf c v).card = max 1 (m.featureFans v).card := by
  classical
  by_cases hsome : ∃ t, (t, v) ∈ s.reached
  · have hcard : (copiesOf c v).card = (m.featureFans v).card := by
      rw [h.copiesOf_eq_image hsome, h.featureFans_eq_image fit]
      refine (card_image_eq_of_iff fun t ht u hu => ?_).symm
      have ht := (mem_filter.mp ht).2
      have hu := (mem_filter.mp hu).2
      rw [fit.fanOf_eq_iff (h.isCorner_of_mem_reached ht) (h.isCorner_of_mem_reached hu)]
      refine ⟨?_, ?_⟩
      · intro htu
        rw [h.separated.same ht htu]
      · intro e
        obtain ⟨w, hw, _⟩ := h.separated.placed ht
        obtain ⟨w', hw', _⟩ := h.separated.placed hu
        apply h.separated.apart ht hu
        rw [hw, hw'] at e ⊢
        exact congrArg some e
    have hpos : 0 < (m.featureFans v).card := by
      obtain ⟨t, ht⟩ := hsome
      exact card_pos.mpr ⟨_, (h.mem_featureFans_iff fit).mpr ⟨t, ht, rfl⟩⟩
    omega
  · have hnone : ∀ t, (t, v) ∉ s.reached := fun t ht => hsome ⟨t, ht⟩
    have hempty : m.featureFans v = ∅ := by
      refine eq_empty_of_forall_notMem fun F hF => ?_
      obtain ⟨t, ht, _⟩ := (h.mem_featureFans_iff fit).mp hF
      exact hnone t ht
    rw [h.copiesOf_eq_singleton hv hnone, hempty, card_singleton, card_empty]
    rfl

/-- the copies of all vertices together are the vertices of the cut mesh -/
theorem sum_card_copiesOf :
    ∑ v ∈ range m.vertices.size, (copiesOf c v).card = c.mesh.vertices.size := by
  classical
  have hsum := card_eq_sum_card_fiberwise (s := range c.mesh.vertices.size)
    (t := range m.vertices.size) (f := fun i => (s.origin[i]?).getD 0) (by
      intro i hi
      rw [mem_coe, mem_range, h.size] at hi
      rw [mem_coe, mem_range]
      show (s.origin[i]?).getD 0 < _
      rw [Array.getElem?_eq_getElem hi]
      exact h.separated.origin_lt fit (Array.getElem?_eq_getElem hi))
  rw [card_range] at hsum
  rw [hsum]
  refine sum_congr rfl fun v _ => congrArg card (filter_congr fun i hi => ?_)
  rw [mem_range, h.size] at hi
  rw [h.originOf_eq_ok_iff, Array.getElem?_eq_getElem hi, Option.getD_some, Option.some.injEq]

theorem duplicated_eq :
    c.duplicated = ∑ v ∈ range m.vertices.size, ((m.featureFans v).card - 1) := by
  have hsum := h.sum_card_copiesOf fit
  have hcard : ∑ v ∈ range m.vertices.size, (copiesOf c v).card
      = ∑ v ∈ range m.vertices.size, (((m.featureFans v).card - 1) + 1) := by
    refine sum_congr rfl fun v hv => ?_
    rw [h.card_copiesOf fit (mem_range.mp hv)]
    omega
  rw [hcard, sum_add_distrib, ← card_eq_sum_ones, card_range] at hsum
  have hdup := h.duplicated
  omega

/-! ## the whole cut -/

theorem oneCopyPerFan : OneCopyPerFan m c where
  size := by
    rw [h.triangles]
    exact h.separated.size
  corner := by
    intro t vs hvs
    obtain ⟨ws, hws⟩ := h.separated.exists_moved hvs
    refine ⟨ws, by rw [h.triangles]; exact hws, fun k => ?_⟩
    exact h.originOf_eq_ok_iff.mpr (h.separated.origin_corner fit hvs hws k)
  own := fun v hv => h.originOf_eq_ok_iff.mpr (h.separated.old hv)
  card_copies := fun v hv => h.card_copiesOf fit hv
  vertex := fun i v hi => h.vertex (h.originOf_eq_ok_iff.mp hi)
  duplicated := h.duplicated_eq fit
  together := by
    intro v F hF
    obtain ⟨t, ht, rfl⟩ := mem_fans.mp hF
    obtain ⟨w, hw⟩ := h.exists_cornerIn ht
    exact ⟨w, (h.fanAt_iff fit ht).mpr hw⟩
  apart := by
    intro v F hF G hG hne w w' hw hw' e
    obtain ⟨t, ht, rfl⟩ := (h.mem_featureFans_iff fit).mp hF
    obtain ⟨u, hu, rfl⟩ := (h.mem_featureFans_iff fit).mp hG
    have htc := h.isCorner_of_mem_reached ht
    have huc := h.isCorner_of_mem_reached hu
    rw [h.fanAt_iff fit htc] at hw
    rw [h.fanAt_iff fit huc, ← e] at hw'
    exact hne ((fit.fanOf_eq_iff htc huc).mpr (h.separated.apart ht hu (hw.trans hw'.symm)))
  keeper := by
    intro v ⟨F, hF⟩
    obtain ⟨t, ht, _⟩ := (h.mem_featureFans_iff fit).mp hF
    obtain ⟨u, hu, hw⟩ := h.separated.claimed.mp (h.separated.first ht)
    have huc := h.isCorner_of_mem_reached hu
    refine ⟨m.fanOf v u, ⟨(h.mem_featureFans_iff fit).mpr ⟨u, hu, rfl⟩,
      (h.fanAt_iff fit huc).mpr hw⟩, ?_⟩
    intro G ⟨hG, hat⟩
    obtain ⟨t', ht', rfl⟩ := (h.mem_featureFans_iff fit).mp hG
    have htc := h.isCorner_of_mem_reached ht'
    rw [h.fanAt_iff fit htc] at hat
    exact (fit.fanOf_eq_iff htc huc).mpr (h.separated.apart ht' hu (hat.trans hw.symm))
  plain := by
    intro v F hF hno
    obtain ⟨t, ht, rfl⟩ := mem_fans.mp hF
    refine (h.fanAt_iff fit ht).mpr (h.separated.kept ht fun hreached => hno ?_)
    exact (h.mem_featureFans_iff fit).mpr ⟨t, hreached, rfl⟩
  used := by
    intro i hi hlt
    rw [h.size] at hlt
    obtain ⟨t, _, hw⟩ := h.separated.copy hi (Array.getElem?_eq_getElem hlt)
    unfold cornerIn at hw
    obtain ⟨vs, hvs, hw⟩ := Option.bind_eq_some_iff.mp hw
    obtain ⟨k, _, hw⟩ := Option.bind_eq_some_iff.mp hw
    obtain ⟨ws, hws, hk⟩ := Option.map_eq_some_iff.mp hw
    exact ⟨t, ws, by rw [h.triangles]; exact hws, k, hk⟩

end Cut

/-- the cut of a mesh that the library gives completes, with one copy of a vertex for each of its
feature fans -/
theorem cutAlongFeatures_copies [Scalar α] {m : Mesh α} (h : Obtained m) :
    ∃ c, m.cutAlongFeatures = .ok c ∧ OneCopyPerFan m c := by
  obtain ⟨c, s, hok, hcut⟩ := h.cut
  exact ⟨c, hok, hcut.oneCopyPerFan h.coherent.toFitted⟩

theorem copies_threeTriangles : ∃ m, threeTriangles.result = .ok m ∧
    ∃ c, m.cutAlongFeatures = .ok c ∧ OneCopyPerFan m c := by
  obtain ⟨m, hm, _⟩ := threeTriangles_ok
  exact ⟨m, hm, cutAlongFeatures_copies (.ofTriangles hm)⟩

end Mesh
end DiskCut
