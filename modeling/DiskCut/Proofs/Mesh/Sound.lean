import DiskCut.Proofs.Mesh.Join
import Mathlib.Logic.Relation

/-!
# Incidence

How vertices, edges and triangles of a mesh meet, told by what the mesh stores.

* `IsCorner`, `IsEnd`, `Incident`   a vertex of a triangle, a vertex of an edge, a triangle at an edge
* `IsFeature`, `IsPlain`            an edge on a feature, on no feature
* `IsOpen`, `IsInner`               an edge with exactly one triangle, with exactly two
* `Dual`                            two triangles at one plain edge
* `Walk m E a b`                    a walk from `a` to `b` along edges that satisfy `E`
* `Seated m`, `Fitted m`, `Sound m` the stored incidence is that of the triangles

On a fitted mesh an edge has one or two triangles or none, `incident_iff` reads incidence off the
corners, and a triangle at an edge has both ends of it as corners.
-/

namespace DiskCut
open Std
namespace Mesh
variable {α : Type}

def IsCorner (m : Mesh α) (t : TriangleId) (v : VertexId) : Prop :=
  ∃ vs, m.triangles[t]? = some vs ∧ ∃ j, vs.get j = v

def IsEnd (m : Mesh α) (e : EdgeId) (v : VertexId) : Prop :=
  ∃ x, m.edges[e]? = some x ∧ (x.ends.1 = v ∨ x.ends.2 = v)

def Incident (m : Mesh α) (e : EdgeId) (t : TriangleId) : Prop :=
  ∃ ts, m.edgeTriangles[e]? = some ts ∧ t ∈ ts

def IsFeature (m : Mesh α) (e : EdgeId) : Prop := ∃ x, m.edges[e]? = some x ∧ x.isFeature = true

def IsPlain (m : Mesh α) (e : EdgeId) : Prop := ∃ x, m.edges[e]? = some x ∧ x.isFeature = false

def IsOpen (m : Mesh α) (e : EdgeId) : Prop := ∃ t, m.edgeTriangles[e]? = some [t]

def IsInner (m : Mesh α) (e : EdgeId) : Prop := ∃ t u, m.edgeTriangles[e]? = some [t, u]

/-- triangles `t` and `u` share an edge that is no feature -/
def Dual (m : Mesh α) (t u : TriangleId) : Prop :=
  ∃ e, m.IsPlain e ∧ m.Incident e t ∧ m.Incident e u

/-- edge `e` joins `a` and `b` -/
def Joins (m : Mesh α) (e : EdgeId) (a b : VertexId) : Prop :=
  ∃ x, m.edges[e]? = some x ∧ x.ends = edgeKey a b

/-- an edge that satisfies `E` joins `a` and `b` -/
def Along (m : Mesh α) (E : EdgeId → Prop) (a b : VertexId) : Prop := ∃ e, E e ∧ m.Joins e a b

def Walk (m : Mesh α) (E : EdgeId → Prop) : VertexId → VertexId → Prop :=
  Relation.ReflTransGen (m.Along E)

/-- the corners of triangles exist, and the stored incidence is that of the triangles, proper or not -/
structure Seated (m : Mesh α) : Prop where
  corner_lt : ∀ {t : TriangleId} {vs}, m.triangles[t]? = some vs →
    ∀ j, vs.get j < m.vertices.size
  tabled : m.Tabled
  adjacent : m.Adjacent

/-- triangles are proper, and the stored incidence is theirs -/
structure Fitted (m : Mesh α) : Prop where
  corner_lt : ∀ {t : TriangleId} {vs}, m.triangles[t]? = some vs →
    ∀ j, vs.get j < m.vertices.size
  proper : m.Proper
  tabled : m.Tabled
  adjacent : m.Adjacent

/-- the stored feature marks agree as well -/
structure Sound (m : Mesh α) : Prop extends m.Fitted where
  feature : ∀ e, e ∈ m.featureEdges ↔ m.IsFeature e

theorem Fitted.seated {m : Mesh α} (h : m.Fitted) : m.Seated := ⟨h.corner_lt, h.tabled, h.adjacent⟩

section
variable {m : Mesh α} {e : EdgeId} {t u : TriangleId} {a b v : VertexId}

theorem IsPlain.not_isFeature (h : m.IsPlain e) : ¬ m.IsFeature e := by
  intro hf
  obtain ⟨x, hx, hplain⟩ := h
  obtain ⟨y, hy, hfeature⟩ := hf
  rw [hx] at hy
  rw [Option.some.inj hy, hfeature] at hplain
  cases hplain

theorem isPlain_or_isFeature (h : e < m.edges.size) : m.IsPlain e ∨ m.IsFeature e := by
  cases hf : m.edges[e].isFeature with
  | false => exact .inl ⟨_, Array.getElem?_eq_getElem h, hf⟩
  | true => exact .inr ⟨_, Array.getElem?_eq_getElem h, hf⟩

theorem isPlain_iff (h : e < m.edges.size) : m.IsPlain e ↔ ¬ m.IsFeature e :=
  ⟨IsPlain.not_isFeature, (isPlain_or_isFeature h).resolve_right⟩

theorem IsFeature.lt_size (h : m.IsFeature e) : e < m.edges.size := by
  obtain ⟨x, hx, _⟩ := h
  exact (Array.getElem?_eq_some_iff.mp hx).1

theorem IsPlain.lt_size (h : m.IsPlain e) : e < m.edges.size := by
  obtain ⟨x, hx, _⟩ := h
  exact (Array.getElem?_eq_some_iff.mp hx).1

theorem IsEnd.lt_size (h : m.IsEnd e v) : e < m.edges.size := by
  obtain ⟨x, hx, _⟩ := h
  exact (Array.getElem?_eq_some_iff.mp hx).1

theorem IsCorner.lt_size (h : m.IsCorner t v) : t < m.triangles.size := by
  obtain ⟨vs, hvs, _⟩ := h
  exact (Array.getElem?_eq_some_iff.mp hvs).1

theorem edgeKey_cases (a b : VertexId) : edgeKey a b = (a, b) ∨ edgeKey a b = (b, a) := by
  unfold edgeKey
  split
  · exact .inl rfl
  · exact .inr rfl

theorem Joins.isEnd_left (h : m.Joins e a b) : m.IsEnd e a := by
  obtain ⟨x, hx, hends⟩ := h
  refine ⟨x, hx, ?_⟩
  rw [hends]
  rcases edgeKey_cases a b with hk | hk
  · rw [hk]
    exact .inl rfl
  · rw [hk]
    exact .inr rfl

theorem Joins.symm (h : m.Joins e a b) : m.Joins e b a := by
  obtain ⟨x, hx, hends⟩ := h
  exact ⟨x, hx, hends.trans (edgeKey_comm a b)⟩

theorem Joins.isEnd_right (h : m.Joins e a b) : m.IsEnd e b := h.symm.isEnd_left

theorem Joins.isEnd_iff (h : m.Joins e a b) : m.IsEnd e v ↔ v = a ∨ v = b := by
  refine ⟨?_, ?_⟩
  · intro hv
    obtain ⟨x, hx, hends⟩ := h
    obtain ⟨y, hy, hv⟩ := hv
    rw [hx] at hy
    obtain rfl := Option.some.inj hy
    rw [hends] at hv
    rcases edgeKey_cases a b with hk | hk
    · rw [hk] at hv
      exact hv.imp Eq.symm Eq.symm
    · rw [hk] at hv
      exact hv.symm.imp Eq.symm Eq.symm
  · intro hv
    rcases hv with rfl | rfl
    · exact h.isEnd_left
    · exact h.isEnd_right

theorem Dual.symm (h : m.Dual t u) : m.Dual u t := by
  obtain ⟨e, he, ht, hu⟩ := h
  exact ⟨e, he, hu, ht⟩

instance dual_symm : Std.Symm m.Dual := ⟨fun _ _ => Dual.symm⟩

end

/-! ## walks -/

section
variable {m : Mesh α} {E F : EdgeId → Prop} {e : EdgeId} {a b c : VertexId}

instance along_symm : Std.Symm (m.Along E) where
  symm := by
    intro a b h
    obtain ⟨e, he, hjoin⟩ := h
    exact ⟨e, he, hjoin.symm⟩

theorem Walk.single (he : E e) (h : m.Joins e a b) : m.Walk E a b :=
  Relation.ReflTransGen.single ⟨e, he, h⟩

theorem Walk.refl : m.Walk E a a := Relation.ReflTransGen.refl

theorem Walk.trans (h : m.Walk E a b) (h' : m.Walk E b c) : m.Walk E a c :=
  Relation.ReflTransGen.trans h h'

theorem Walk.symm (h : m.Walk E a b) : m.Walk E b a := Relation.ReflTransGen.stdSymm.symm a b h

/-- a walk goes on where every edge of it can be replaced by a walk -/
theorem Walk.replace (h : m.Walk E a b)
    (detour : ∀ e a b, E e → m.Joins e a b → m.Walk F a b) : m.Walk F a b := by
  induction h with
  | refl => exact .refl
  | tail _ hstep ih =>
    obtain ⟨e, he, hjoin⟩ := hstep
    exact ih.trans (detour e _ _ he hjoin)

theorem Walk.mono (h : m.Walk E a b) (hEF : ∀ e, E e → F e) : m.Walk F a b :=
  h.replace fun e _ _ he hjoin => .single (hEF e he) hjoin

end

/-! ## reading marks -/

section
variable {m : Mesh α} {e : EdgeId}

theorem isFeatureEdge_of_isFeature (h : m.IsFeature e) : m.isFeatureEdge e = .ok true := by
  obtain ⟨x, hx, hf⟩ := h
  unfold isFeatureEdge edge
  rw [fetch_eq_ok_iff.mpr hx, ← hf]
  rfl

theorem isFeatureEdge_of_isPlain (h : m.IsPlain e) : m.isFeatureEdge e = .ok false := by
  obtain ⟨x, hx, hf⟩ := h
  unfold isFeatureEdge edge
  rw [fetch_eq_ok_iff.mpr hx, ← hf]
  rfl

theorem isBoundaryEdge_eq {ts : List TriangleId} (hts : m.edgeTriangles[e]? = some ts) :
    m.isBoundaryEdge e = .ok (decide (ts.length < 2)) := by
  unfold isBoundaryEdge trianglesAt
  rw [fetch_eq_ok_iff.mpr hts]
  rfl

end

/-! ## fitted meshes -/

namespace Fitted
variable {m : Mesh α} (h : m.Fitted) {e e' : EdgeId} {t u w : TriangleId} {a b v : VertexId}
include h

theorem lt_size_of_incident (ht : m.Incident e t) : e < m.edges.size := by
  obtain ⟨ts, hts, _⟩ := ht
  have hlt := (Array.getElem?_eq_some_iff.mp hts).1
  rw [h.tabled.size_eq] at hlt
  exact hlt

/-- the triangles at an edge are those with a side on its ends -/
theorem incident_iff : m.Incident e t ↔
    ∃ x vs, m.edges[e]? = some x ∧ m.triangles[t]? = some vs ∧ ∃ j, vs.keys.get j = x.ends := by
  refine ⟨?_, ?_⟩
  · intro ht
    have hlt := h.lt_size_of_incident ht
    obtain ⟨ts, hts, hmem⟩ := ht
    have hx := Array.getElem?_eq_getElem hlt
    rw [h.adjacent.present hx] at hts
    obtain rfl := Option.some.inj hts
    obtain ⟨vs, hvs, hj⟩ := mem_trianglesOn.mp hmem
    exact ⟨_, vs, hx, hvs, hj⟩
  · intro ht
    obtain ⟨x, vs, hx, hvs, hj⟩ := ht
    exact ⟨_, h.adjacent.present hx, mem_trianglesOn.mpr ⟨vs, hvs, hj⟩⟩

/-- the triangles at an edge, as they are read -/
theorem trianglesAt_ok (he : e < m.edges.size) :
    ∃ ts, m.trianglesAt e = .ok ts ∧ ∀ t, t ∈ ts ↔ m.Incident e t := by
  rw [← h.tabled.size_eq] at he
  have hts := Array.getElem?_eq_getElem he
  refine ⟨_, fetch_eq_ok_iff.mpr hts, fun t => ⟨fun ht => ⟨_, hts, ht⟩, fun ht => ?_⟩⟩
  obtain ⟨us, hus, ht⟩ := ht
  rw [hts] at hus
  exact Option.some.inj hus ▸ ht

theorem lt_of_incident (ht : m.Incident e t) : t < m.triangles.size := by
  obtain ⟨_, vs, _, hvs, _⟩ := h.incident_iff.mp ht
  exact (Array.getElem?_eq_some_iff.mp hvs).1

/-- the edge of a side of a triangle -/
theorem side_eq {vs : Triple VertexId} {es : Triple EdgeId} (hvs : m.triangles[t]? = some vs)
    (hes : m.triangleEdges[t]? = some es) (j : Fin 3) :
    m.edgeIndex[vs.keys.get j]? = some (es.get j) := by
  obtain ⟨es', hes', hside⟩ := h.adjacent.side hvs
  rw [hes] at hes'
  obtain rfl := Option.some.inj hes'
  exact hside j

theorem joins_side {vs : Triple VertexId} {es : Triple EdgeId} (hvs : m.triangles[t]? = some vs)
    (hes : m.triangleEdges[t]? = some es) (j : Fin 3) :
    m.Joins (es.get j) (vs.get j) (vs.get (j + 1)) := by
  obtain ⟨x, hx, hends⟩ := h.tabled.edge_of_index (h.side_eq hvs hes j)
  exact ⟨x, hx, by rw [hends, Triple.get_keys]⟩

theorem incident_side {vs : Triple VertexId} {es : Triple EdgeId}
    (hvs : m.triangles[t]? = some vs) (hes : m.triangleEdges[t]? = some es) (j : Fin 3) :
    m.Incident (es.get j) t := by
  obtain ⟨x, hx, hends⟩ := h.tabled.edge_of_index (h.side_eq hvs hes j)
  exact h.incident_iff.mpr ⟨x, vs, hx, hvs, j, hends.symm⟩

/-- the sides of a triangle, as they are read, are the edges at which it is recorded -/
theorem sidesOf_ok (ht : t < m.triangles.size) :
    ∃ es, m.sidesOf t = .ok es ∧ ∀ e, e ∈ es.toList ↔ m.Incident e t := by
  have hvs := Array.getElem?_eq_getElem ht
  obtain ⟨es, hes, hside⟩ := h.adjacent.side hvs
  refine ⟨es, fetch_eq_ok_iff.mpr hes, fun e => ?_⟩
  rw [Triple.mem_toList]
  refine ⟨?_, ?_⟩
  · intro hex
    obtain ⟨j, rfl⟩ := hex
    exact h.incident_side hvs hes j
  · intro hinc
    obtain ⟨x, vs, hx, hvs', j, hj⟩ := h.incident_iff.mp hinc
    rw [hvs] at hvs'
    obtain rfl := Option.some.inj hvs'
    have hindex := hside j
    rw [hj, h.tabled.index_of_edge hx] at hindex
    exact ⟨j, (Option.some.inj hindex).symm⟩

/-- every side of a triangle is an edge at which the triangle is recorded -/
theorem exists_side {vs : Triple VertexId} (hvs : m.triangles[t]? = some vs) (j : Fin 3) :
    ∃ e, m.Joins e (vs.get j) (vs.get (j + 1)) ∧ m.Incident e t := by
  obtain ⟨es, _, hside⟩ := h.adjacent.side hvs
  obtain ⟨x, hx, hends⟩ := h.tabled.edge_of_index (hside j)
  refine ⟨es.get j, ⟨x, hx, ?_⟩, h.incident_iff.mpr ⟨x, vs, hx, hvs, j, hends.symm⟩⟩
  rw [hends, Triple.get_keys]

theorem exists_joins (ht : m.Incident e t) : ∃ vs j, m.triangles[t]? = some vs ∧
    m.Joins e (vs.get j) (vs.get (j + 1)) := by
  obtain ⟨x, vs, hx, hvs, j, hj⟩ := h.incident_iff.mp ht
  refine ⟨vs, j, hvs, x, hx, ?_⟩
  rw [← hj, Triple.get_keys]

theorem isCorner_of_incident (ht : m.Incident e t) (hv : m.IsEnd e v) : m.IsCorner t v := by
  obtain ⟨vs, j, hvs, hjoin⟩ := h.exists_joins ht
  rcases hjoin.isEnd_iff.mp hv with rfl | rfl
  · exact ⟨vs, hvs, j, rfl⟩
  · exact ⟨vs, hvs, j + 1, rfl⟩

theorem ne_of_joins (ht : m.Incident e t) (hab : m.Joins e a b) : a ≠ b := by
  obtain ⟨vs, j, hvs, hjoin⟩ := h.exists_joins ht
  have hne := Triple.get_ne_get_succ (h.proper hvs) j
  obtain ⟨x, hx, hends⟩ := hab
  obtain ⟨y, hy, hends'⟩ := hjoin
  rw [hx] at hy
  rw [← Option.some.inj hy, hends, edgeKey_eq_iff] at hends'
  intro hab
  rcases hends' with ⟨ha, hb⟩ | ⟨ha, hb⟩
  · exact hne (ha.symm.trans (hab.trans hb))
  · exact hne (hb.symm.trans (hab.symm.trans ha))

theorem eq_of_joins (he : m.Joins e a b) (he' : m.Joins e' a b) : e = e' := by
  obtain ⟨x, hx, hends⟩ := he
  obtain ⟨y, hy, hends'⟩ := he'
  exact h.tabled.eq_of_ends hx hy (hends.trans hends'.symm)

theorem corner_lt_of_isCorner (ht : m.IsCorner t v) : v < m.vertices.size := by
  obtain ⟨vs, hvs, j, rfl⟩ := ht
  exact h.corner_lt hvs j

theorem length_le_two {ts : List TriangleId} (hts : m.edgeTriangles[e]? = some ts) :
    ts.length ≤ 2 := by
  have hlt := (Array.getElem?_eq_some_iff.mp hts).1
  rw [h.tabled.size_eq] at hlt
  rw [h.adjacent.present (Array.getElem?_eq_getElem hlt)] at hts
  rw [← Option.some.inj hts]
  exact h.adjacent.few _

theorem sorted {ts : List TriangleId} (hts : m.edgeTriangles[e]? = some ts) :
    ts.Pairwise (· < ·) := by
  have hlt := (Array.getElem?_eq_some_iff.mp hts).1
  rw [h.tabled.size_eq] at hlt
  rw [h.adjacent.present (Array.getElem?_eq_getElem hlt)] at hts
  rw [← Option.some.inj hts]
  exact trianglesOn_sorted h.proper

/-- the list of triangles at an edge, told by its members -/
theorem edgeTriangles_eq {ts : List TriangleId} (he : e < m.edges.size)
    (hsorted : ts.Pairwise (· < ·)) (hmem : ∀ t, m.Incident e t ↔ t ∈ ts) :
    m.edgeTriangles[e]? = some ts := by
  obtain ⟨us, hus, hmem'⟩ := h.trianglesAt_ok he
  have hus := fetch_eq_ok_iff.mp hus
  rw [hus, (h.sorted hus).eq_of_mem_iff hsorted fun t => (hmem' t).trans (hmem t)]

/-- an edge has no third triangle -/
theorem eq_or_eq_of_incident (ht : m.Incident e t) (hu : m.Incident e u) (hne : t ≠ u)
    (hw : m.Incident e w) : w = t ∨ w = u := by
  obtain ⟨ts, hts, ht⟩ := ht
  obtain ⟨us, hus, hu⟩ := hu
  obtain ⟨ws, hws, hw⟩ := hw
  rw [hts] at hus hws
  obtain rfl := Option.some.inj hus
  obtain rfl := Option.some.inj hws
  have hlen := h.length_le_two hts
  match ts, hlen with
  | [], _ => cases ht
  | [x], _ =>
    rw [List.mem_singleton] at ht hu
    exact absurd (ht.trans hu.symm) hne
  | [x, y], _ =>
    simp only [List.mem_cons, List.not_mem_nil, or_false] at ht hu hw
    grind

/-- an edge of two triangles is an inner one -/
theorem isInner_of_incident (ht : m.Incident e t) (hu : m.Incident e u) (hne : t ≠ u) :
    m.IsInner e := by
  obtain ⟨ts, hts, ht⟩ := ht
  obtain ⟨us, hus, hu⟩ := hu
  rw [hts] at hus
  obtain rfl := Option.some.inj hus
  have hlen := h.length_le_two hts
  match ts, hlen with
  | [], _ => cases ht
  | [x], _ =>
    rw [List.mem_singleton] at ht hu
    exact absurd (ht.trans hu.symm) hne
  | [x, y], _ => exact ⟨x, y, hts⟩

end Fitted
end Mesh
end DiskCut
