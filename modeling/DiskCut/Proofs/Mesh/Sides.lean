import DiskCut.Mesh.Topology
import DiskCut.Proofs.Run
import Mathlib.Data.List.Sort

/-!
# Sides of triangles

The pairs of vertices that are sides of triangles, apart from any edge set.

* `Triple.keys`      the unordered pairs of the three sides
* `sidesAmong`       the sides of numbered triangles, each with its triangle, in reading order
* `sideScan`         the same without the numbers
* `owners sides k`   the triangles that a list of sides names at the pair `k`
* `trianglesOn m k`  the triangles of a mesh with the side `k`

A triangle with three different corners has three different sides, so `trianglesOn` lists each
triangle once and in increasing order (`trianglesOn_sorted`).
-/

namespace DiskCut

/-! ## the sides of one triangle -/

namespace Triple

/-- the unordered pairs of the sides -/
def keys (vs : Triple VertexId) : Triple (VertexId × VertexId) :=
  vs.sides.map fun side => edgeKey side.1 side.2

theorem get_keys (vs : Triple VertexId) (j : Fin 3) :
    vs.keys.get j = edgeKey (vs.get j) (vs.get (j + 1)) := by
  rw [keys, get_map, get_sides]

theorem keys_eq (vs : Triple VertexId) :
    vs.keys = ⟨edgeKey vs.a vs.b, edgeKey vs.b vs.c, edgeKey vs.c vs.a⟩ := rfl

/-- a side joins two corners -/
theorem corners_of_mem_keys {vs : Triple VertexId} {a b : VertexId}
    (h : edgeKey a b ∈ vs.keys.toList) : a ∈ vs.toList ∧ b ∈ vs.toList := by
  obtain ⟨j, hj⟩ := mem_toList.mp h
  rw [get_keys, edgeKey_eq_iff] at hj
  rcases hj with ⟨ha, hb⟩ | ⟨ha, hb⟩
  · exact ⟨mem_toList.mpr ⟨j, ha⟩, mem_toList.mpr ⟨j + 1, hb⟩⟩
  · exact ⟨mem_toList.mpr ⟨j + 1, hb⟩, mem_toList.mpr ⟨j, ha⟩⟩

theorem get_injective {β : Type} {vs : Triple β} (h : vs.Distinct) {i j : Fin 3}
    (e : vs.get i = vs.get j) : i = j := by
  obtain ⟨hab, hbc, hac⟩ := h
  match i, j with
  | 0, 0 | 1, 1 | 2, 2 => rfl
  | 0, 1 => exact absurd e hab
  | 1, 0 => exact absurd e.symm hab
  | 1, 2 => exact absurd e hbc
  | 2, 1 => exact absurd e.symm hbc
  | 0, 2 => exact absurd e hac
  | 2, 0 => exact absurd e.symm hac

theorem ne_succ (j : Fin 3) : j ≠ j + 1 := by
  decide +revert

theorem ne_add_two (j : Fin 3) : j ≠ j + 2 := by
  decide +revert

theorem succ_add_two (j : Fin 3) : j + 1 + 2 = j := by
  decide +revert

theorem add_two_succ (j : Fin 3) : j + 2 + 1 = j := by
  decide +revert

theorem succ_succ_succ (j : Fin 3) : j + 1 + 1 + 1 = j := by
  decide +revert

theorem get_ne_get_succ {vs : Triple VertexId} (h : vs.Distinct) (j : Fin 3) :
    vs.get j ≠ vs.get (j + 1) :=
  fun e => ne_succ j (get_injective h e)

theorem place?_get {vs : Triple VertexId} (h : vs.Distinct) (j : Fin 3) :
    vs.place? (vs.get j) = some j := by
  cases hp : vs.place? (vs.get j) with
  | none => exact absurd (mem_toList.mpr ⟨j, rfl⟩) (place?_eq_none_iff.mp hp)
  | some k => rw [get_injective h (get_of_place? hp)]

/-- the sides of a triangle with different corners are different pairs -/
theorem keys_distinct {vs : Triple VertexId} (h : vs.Distinct) :
    vs.keys.a ≠ vs.keys.b ∧ vs.keys.b ≠ vs.keys.c ∧ vs.keys.a ≠ vs.keys.c := by
  obtain ⟨hab, hbc, hac⟩ := h
  simp only [keys_eq, ne_eq, edgeKey_eq_iff]
  grind

theorem keys_injective {vs : Triple VertexId} (h : vs.Distinct) {i j : Fin 3}
    (e : vs.keys.get i = vs.keys.get j) : i = j :=
  get_injective (keys_distinct h) e

/-- the two sides at a corner are the one that starts and the one that ends there -/
theorem side_at_corner {vs : Triple VertexId} (h : vs.Distinct) {i j : Fin 3}
    (e : (vs.keys.get j).1 = vs.get i ∨ (vs.keys.get j).2 = vs.get i) : j = i ∨ j = i + 2 := by
  have hends : vs.get i = vs.get j ∨ vs.get i = vs.get (j + 1) := by
    rw [get_keys] at e
    unfold edgeKey at e
    split at e
    · exact e.imp Eq.symm Eq.symm
    · exact e.symm.imp Eq.symm Eq.symm
  rcases hends with e | e
  · exact .inl (get_injective h e).symm
  · rw [get_injective h e, succ_add_two]
    exact .inr rfl

end Triple

/-! ## lists of sides -/

/-- the sides of numbered triangles, in reading order -/
def sidesAmong (numbered : List (Triple VertexId × TriangleId)) :
    List ((VertexId × VertexId) × TriangleId) :=
  numbered.flatMap fun x => x.1.keys.toList.map (·, x.2)

/-- the pairs of all sides, in reading order: triangle by triangle, and then corner by corner -/
def sideScan (triangles : List (Triple VertexId)) : List (VertexId × VertexId) :=
  triangles.flatMap (·.keys.toList)

/-- the triangles that a list of sides names at the pair `k` -/
def owners (sides : List ((VertexId × VertexId) × TriangleId)) (k : VertexId × VertexId) :
    List TriangleId :=
  (sides.filter (·.1 = k)).map Prod.snd

section
variable {sides : List ((VertexId × VertexId) × TriangleId)} {k : VertexId × VertexId}
  {t : TriangleId} {numbered : List (Triple VertexId × TriangleId)}

theorem sidesAmong_append (xs ys : List (Triple VertexId × TriangleId)) :
    sidesAmong (xs ++ ys) = sidesAmong xs ++ sidesAmong ys := by
  simp [sidesAmong]

theorem sidesAmong_singleton (x : Triple VertexId × TriangleId) :
    sidesAmong [x] = [(x.1.keys.a, x.2), (x.1.keys.b, x.2), (x.1.keys.c, x.2)] := by
  simp [sidesAmong, Triple.toList]

theorem map_fst_sidesAmong (xs : List (Triple VertexId × TriangleId)) :
    (sidesAmong xs).map Prod.fst = sideScan (xs.map Prod.fst) := by
  unfold sidesAmong sideScan
  rw [List.map_flatMap, List.flatMap_map]
  refine congrArg (fun f => xs.flatMap f) (funext fun x => ?_)
  rw [List.map_map]
  exact List.map_id _

theorem mem_sideScan {triangles : List (Triple VertexId)} :
    k ∈ sideScan triangles ↔ ∃ vs ∈ triangles, k ∈ vs.keys.toList := List.mem_flatMap

/-- triangles with different corners use a side once each -/
theorem count_sideScan {triangles : List (Triple VertexId)}
    (distinct : ∀ vs ∈ triangles, vs.Distinct) :
    (sideScan triangles).count k = triangles.countP (k ∈ ·.keys.toList) := by
  induction triangles with
  | nil => rfl
  | cons vs rest ih =>
    have hrest := ih fun us hus => distinct us (List.mem_cons_of_mem _ hus)
    obtain ⟨hab, hbc, hac⟩ := Triple.keys_distinct (distinct vs List.mem_cons_self)
    have hnodup : vs.keys.toList.Nodup := by simp [Triple.toList, hab, hbc, hac]
    rw [List.countP_cons, ← hrest, sideScan, List.flatMap_cons, List.count_append, Nat.add_comm,
      hnodup.count]
    simp only [decide_eq_true_eq]
    rfl

theorem owners_append (xs ys : List ((VertexId × VertexId) × TriangleId)) :
    owners (xs ++ ys) k = owners xs k ++ owners ys k := by
  simp [owners]

theorem owners_singleton (k' : VertexId × VertexId) :
    owners [(k', t)] k = if k' = k then [t] else [] := by
  by_cases h : k' = k <;> simp [owners, h]

theorem mem_owners : t ∈ owners sides k ↔ (k, t) ∈ sides := by
  rw [owners, List.mem_map]
  refine ⟨?_, ?_⟩
  · intro hx
    obtain ⟨⟨k', t'⟩, h, rfl⟩ := hx
    obtain ⟨hmem, hk⟩ := List.mem_filter.mp h
    obtain rfl : k' = k := of_decide_eq_true hk
    exact hmem
  · intro h
    exact ⟨(k, t), List.mem_filter.mpr ⟨h, decide_eq_true rfl⟩, rfl⟩

theorem mem_sidesAmong :
    (k, t) ∈ sidesAmong numbered ↔ ∃ vs, (vs, t) ∈ numbered ∧ ∃ j, vs.keys.get j = k := by
  simp only [sidesAmong, List.mem_flatMap, List.mem_map, Triple.mem_toList, Prod.mk.injEq]
  refine ⟨?_, ?_⟩
  · intro hex
    obtain ⟨⟨vs, u⟩, hx, _, hj, rfl, rfl⟩ := hex
    exact ⟨vs, hx, hj⟩
  · intro hex
    obtain ⟨vs, hx, hj⟩ := hex
    exact ⟨(vs, t), hx, k, hj, rfl, rfl⟩

theorem owners_ne_nil : owners sides k ≠ [] ↔ k ∈ sides.map Prod.fst := by
  rw [List.mem_map]
  refine ⟨?_, ?_⟩
  · intro h
    obtain ⟨t, ht⟩ := List.exists_mem_of_ne_nil _ h
    exact ⟨(k, t), mem_owners.mp ht, rfl⟩
  · intro hx
    obtain ⟨⟨k', t⟩, h, rfl⟩ := hx
    exact List.ne_nil_of_mem (mem_owners.mpr h)

theorem length_owners_next (before after : List ((VertexId × VertexId) × TriangleId))
    (k : VertexId × VertexId) (t : TriangleId) :
    (owners (before ++ (k, t) :: after) k).length
      = (owners before k).length + 1 + (owners after k).length := by
  have e : before ++ (k, t) :: after = before ++ [(k, t)] ++ after := by simp
  rw [e, owners_append, owners_append, owners_singleton, if_pos rfl, List.length_append,
    List.length_append, List.length_singleton]

theorem length_owners (sides : List ((VertexId × VertexId) × TriangleId))
    (k : VertexId × VertexId) : (owners sides k).length = (sides.map Prod.fst).count k := by
  rw [owners, List.length_map, ← List.countP_eq_length_filter, List.count, List.countP_map]
  exact List.countP_congr fun _ _ => by simp

/-- a triangle with different corners is named at most once at a pair -/
theorem owners_sidesAmong (distinct : ∀ x ∈ numbered, x.1.Distinct) :
    owners (sidesAmong numbered) k
      = (numbered.filter (k ∈ ·.1.keys.toList)).map Prod.snd := by
  induction numbered with
  | nil => rfl
  | cons x xs ih =>
    have ih' := ih fun y hy => distinct y (List.mem_cons_of_mem _ hy)
    obtain ⟨hab, hbc, hac⟩ := Triple.keys_distinct (distinct x List.mem_cons_self)
    have e : x :: xs = [x] ++ xs := rfl
    rw [e, sidesAmong_append, owners_append, ih', List.filter_append, List.map_append]
    congr 1
    rw [sidesAmong_singleton]
    simp only [owners, Triple.toList, List.filter_cons, List.filter_nil, List.mem_cons,
      List.not_mem_nil, or_false, decide_eq_true_eq]
    grind

end

/-! ## the sides of a mesh -/

namespace Mesh
variable {α : Type}

/-- the sides of all triangles, in reading order -/
def sideList (m : Mesh α) : List ((VertexId × VertexId) × TriangleId) :=
  sidesAmong m.numberedTriangles

/-- every triangle has three different corners -/
def Proper (m : Mesh α) : Prop := ∀ {t : TriangleId} {vs}, m.triangles[t]? = some vs → vs.Distinct

/-- the triangles with the side `k` -/
def trianglesOn (m : Mesh α) (k : VertexId × VertexId) : List TriangleId := owners m.sideList k

section
variable {m : Mesh α} {k : VertexId × VertexId} {t : TriangleId}

theorem mem_numberedTriangles {vs : Triple VertexId} :
    (vs, t) ∈ m.numberedTriangles ↔ m.triangles[t]? = some vs := by
  rw [numberedTriangles, List.mk_mem_zipIdx_iff_getElem?, Array.getElem?_toList]

theorem mem_trianglesOn :
    t ∈ m.trianglesOn k ↔ ∃ vs, m.triangles[t]? = some vs ∧ ∃ j, vs.keys.get j = k := by
  rw [trianglesOn, mem_owners, sideList, mem_sidesAmong]
  simp only [mem_numberedTriangles]

theorem map_fst_sideList (m : Mesh α) : m.sideList.map Prod.fst = sideScan m.triangles.toList := by
  rw [sideList, map_fst_sidesAmong, numberedTriangles, List.zipIdx_map_fst]

theorem trianglesOn_ne_nil : m.trianglesOn k ≠ [] ↔ ∃ vs ∈ m.triangles.toList, k ∈ vs.keys.toList := by
  rw [trianglesOn, owners_ne_nil, map_fst_sideList, mem_sideScan]

theorem length_trianglesOn (proper : m.Proper) :
    (m.trianglesOn k).length = m.triangles.toList.countP (k ∈ ·.keys.toList) := by
  rw [trianglesOn, length_owners, map_fst_sideList, count_sideScan]
  intro vs hvs
  obtain ⟨t, ht⟩ := List.mem_iff_getElem?.mp hvs
  rw [Array.getElem?_toList] at ht
  exact proper ht

theorem trianglesOn_eq_filter (proper : m.Proper) :
    m.trianglesOn k = (m.numberedTriangles.filter (k ∈ ·.1.keys.toList)).map Prod.snd :=
  owners_sidesAmong fun _ hx => proper (mem_numberedTriangles.mp hx)

/-- the triangles with a side come in increasing order, each once -/
theorem trianglesOn_sorted (proper : m.Proper) :
    (m.trianglesOn k).Pairwise (· < ·) := by
  rw [trianglesOn_eq_filter proper]
  have hsub := (List.filter_sublist (p := (k ∈ ·.1.keys.toList)) (l := m.numberedTriangles)).map
    Prod.snd
  apply List.Pairwise.sublist hsub
  rw [numberedTriangles, List.zipIdx_map_snd]
  exact List.pairwise_lt_range'

end
end Mesh
end DiskCut
