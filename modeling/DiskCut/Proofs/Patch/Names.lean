import DiskCut.Mesh.Patch
import DiskCut.Proofs.Mesh.Sides

/-!
# The vertices of a patch

Vertex `i` of a patch stands for the model point `used[i]`, where `used` lists the points that the
triangles of the surface use in increasing order.

* `mem_usedPoints`, `usedPoints_sorted`   what is in that list
* `localNames_eq_some_iff`                the table from points to vertices is its inverse
* `Stands used i v`                       vertex `i` stands for point `v`
* `Stands.edgeKey`, `Renamed.mem_keys`    renaming respects the order of points, so a pair of vertices
                      is a side of a renamed triangle just when the pair of points is one
-/

namespace DiskCut
open Std
namespace Patch

/-! ## the points of a surface -/

section
variable {triangles : List (Triple Nat)} {v : Nat}

theorem mem_usedPoints : v ∈ usedPoints triangles ↔ ∃ vs ∈ triangles, v ∈ vs.toList := by
  rw [usedPoints, ExtTreeSet.mem_toList, mem_ofList_iff, List.mem_flatMap]

theorem usedPoints_sorted (triangles : List (Triple Nat)) :
    (usedPoints triangles).Pairwise (· < ·) :=
  (ExtTreeSet.ordered_toList).imp Nat.compare_eq_lt.mp

end

/-! ## the two numberings -/

/-- vertex `i` of the patch on the points `used` stands for point `v` of the model -/
def Stands (used : List Nat) (i : VertexId) (v : Nat) : Prop := used[i]? = some v

section
variable {used : List Nat} (sorted : used.Pairwise (· < ·)) {i j : VertexId} {v w : Nat}

theorem exists_stands (h : v ∈ used) : ∃ i, Stands used i v := List.mem_iff_getElem?.mp h

theorem Stands.mem (h : Stands used i v) : v ∈ used := List.mem_of_getElem? h

theorem Stands.lt_length (h : Stands used i v) : i < used.length :=
  (List.getElem?_eq_some_iff.mp h).1

/-- a vertex is led back to its point -/
theorem Stands.getD_toArray (h : Stands used i v) : used.toArray[i]?.getD i = v := by
  rw [List.getElem?_toArray, h]
  rfl

theorem Stands.point_eq (h : Stands used i v) (h' : Stands used i w) : v = w :=
  Option.some.inj (h.symm.trans h')

include sorted

theorem nodup_of_sorted : used.Nodup := sorted.imp Nat.ne_of_lt

theorem Stands.vertex_eq (h : Stands used i v) (h' : Stands used j v) : i = j :=
  (List.getElem?_inj h.lt_length (nodup_of_sorted sorted)).mp (h.trans h'.symm)

theorem Stands.lt (h : Stands used i v) (h' : Stands used j w) (hij : i < j) : v < w := by
  obtain ⟨hi, rfl⟩ := List.getElem?_eq_some_iff.mp h
  obtain ⟨hj, rfl⟩ := List.getElem?_eq_some_iff.mp h'
  exact List.pairwise_iff_getElem.mp sorted i j hi hj hij

theorem Stands.le_iff (h : Stands used i v) (h' : Stands used j w) : i ≤ j ↔ v ≤ w := by
  rcases Nat.lt_trichotomy i j with hij | rfl | hij
  · exact iff_of_true (Nat.le_of_lt hij) (Nat.le_of_lt (h.lt sorted h' hij))
  · exact iff_of_true (Nat.le_refl i) (Nat.le_of_eq (h.point_eq h'))
  · exact iff_of_false (Nat.not_le.mpr hij) (Nat.not_le.mpr (h'.lt sorted h hij))

/-- the table of names leads from points to vertices -/
theorem localNames_eq_some_iff : (localNames used)[v]? = some i ↔ Stands used i v := by
  have hnodup : (used.zipIdx.map Prod.fst).Nodup := by
    rw [List.zipIdx_map_fst]
    exact nodup_of_sorted sorted
  rw [localNames, getElem?_ofList_iff hnodup, List.mem_zipIdx_iff_getElem?]
  exact Iff.rfl

theorem localNames_eq_none_iff : (localNames used)[v]? = none ↔ v ∉ used := by
  rw [Option.eq_none_iff_forall_ne_some]
  refine ⟨?_, ?_⟩
  · intro hnone hv
    obtain ⟨i, hi⟩ := exists_stands hv
    exact hnone i ((localNames_eq_some_iff sorted).mpr hi)
  · intro hno i hi
    exact hno ((localNames_eq_some_iff sorted).mp hi).mem

theorem stands_getD (h : v ∈ used) : Stands used ((localNames used).getD v v) v := by
  obtain ⟨i, hi⟩ := exists_stands h
  rw [ExtTreeMap.getD_eq_getD_getElem?, (localNames_eq_some_iff sorted).mpr hi]
  exact hi

/-- a pair of vertices stands for the pair of their points, smaller ones first in both -/
theorem Stands.edgeKey (h : Stands used i v) (h' : Stands used j w) :
    Stands used (edgeKey i j).1 (edgeKey v w).1 ∧ Stands used (edgeKey i j).2 (edgeKey v w).2 := by
  unfold DiskCut.edgeKey
  by_cases hij : i ≤ j
  · rw [if_pos hij, if_pos ((h.le_iff sorted h').mp hij)]
    exact ⟨h, h'⟩
  · rw [if_neg hij, if_neg (mt (h.le_iff sorted h').mpr hij)]
    exact ⟨h', h⟩

end

/-! ## renamed triangles -/

/-- corner by corner, the triangle `us` of a patch stands for the triangle `vs` of the model -/
def Renamed (used : List Nat) (us : Triple VertexId) (vs : Triple Nat) : Prop :=
  ∀ j, Stands used (us.get j) (vs.get j)

/-- a triangle in the numbering of the patch -/
def localTriangle (used : List Nat) (vs : Triple Nat) : Triple VertexId :=
  vs.map fun v => (localNames used).getD v v

section
variable {used : List Nat} {us : Triple VertexId} {vs : Triple Nat} {k : VertexId × VertexId}
  {u v : Nat}

/-- renaming keeps corners apart -/
theorem Renamed.distinct (h : Renamed used us vs) (hvs : vs.Distinct) : us.Distinct := by
  have apart : ∀ i j, vs.get i ≠ vs.get j → us.get i ≠ us.get j := by
    intro i j hne heq
    exact hne ((h i).point_eq (heq ▸ h j))
  exact ⟨apart 0 1 hvs.1, apart 1 2 hvs.2.1, apart 0 2 hvs.2.2⟩

variable (sorted : used.Pairwise (· < ·))
include sorted

theorem renamed_localTriangle (h : ∀ v ∈ vs.toList, v ∈ used) :
    Renamed used (localTriangle used vs) vs := by
  intro j
  rw [localTriangle, Triple.get_map]
  exact stands_getD sorted (h _ (Triple.mem_toList.mpr ⟨j, rfl⟩))

/-- sides are renamed as pairs -/
theorem Renamed.keys (h : Renamed used us vs) (j : Fin 3) :
    Stands used (us.keys.get j).1 (vs.keys.get j).1 ∧
      Stands used (us.keys.get j).2 (vs.keys.get j).2 := by
  rw [Triple.get_keys, Triple.get_keys]
  exact (h j).edgeKey sorted (h (j + 1))

theorem Renamed.exists_stands (h : Renamed used us vs) (hk : k ∈ us.keys.toList) :
    ∃ u v, Stands used k.1 u ∧ Stands used k.2 v := by
  obtain ⟨j, rfl⟩ := Triple.mem_toList.mp hk
  exact ⟨_, _, h.keys sorted j⟩

theorem Renamed.mem_keys (h : Renamed used us vs) (hu : Stands used k.1 u)
    (hv : Stands used k.2 v) : k ∈ us.keys.toList ↔ (u, v) ∈ vs.keys.toList := by
  rw [Triple.mem_toList, Triple.mem_toList]
  refine exists_congr fun j => ⟨?_, ?_⟩
  · intro hk
    obtain ⟨h₁, h₂⟩ := h.keys sorted j
    rw [hk] at h₁ h₂
    exact Prod.ext (h₁.point_eq hu) (h₂.point_eq hv)
  · intro hk
    obtain ⟨h₁, h₂⟩ := h.keys sorted j
    rw [hk] at h₁ h₂
    exact Prod.ext (h₁.vertex_eq sorted hu) (h₂.vertex_eq sorted hv)

end
end Patch
end DiskCut
