import DiskCut.Proofs.Mesh.Valid

/-!
# Which edges an update keeps, and where the new ones go

* `survives m x`       the edge `x` is a feature or a side of a triangle of `m`
* `newPairs m keys`    the pairs among `keys` that are no edges of `m`, in the order in which they first
                       occur
* `Joining.edges_eq`   recording sides puts a plain edge for each new pair after the old edges
* `Dropped.edges_eq`   dropping useless edges leaves those that survive, in their order
* `refreshedEdges m`   the edges that survive, and after them the new ones
* `Refreshed m m'`     `m'` is `m` after a completed update of its edges
* `Kept.refreshed`     so it is for every mesh whose adjacency an update left behind
* `updateEdges_outcome`     an update completes, or stops on the third triangle of a pair
-/

namespace DiskCut
open Std
namespace Mesh
variable {α : Type} {m m' : Mesh α}

/-! ## sides as pairs -/

theorem fst_le_snd_of_mem_sideScan {triangles : List (Triple VertexId)} {k : VertexId × VertexId}
    (h : k ∈ sideScan triangles) : k.1 ≤ k.2 := by
  obtain ⟨vs, _, hk⟩ := mem_sideScan.mp h
  obtain ⟨j, rfl⟩ := Triple.mem_toList.mp hk
  rw [Triple.get_keys]
  exact edgeKey_fst_le _ _

theorem trianglesOn_ne_nil_iff {k : VertexId × VertexId} :
    m.trianglesOn k ≠ [] ↔ k ∈ sideScan m.triangles.toList :=
  trianglesOn_ne_nil.trans mem_sideScan.symm

/-! ## the new edges -/

/-- the pairs among `keys` that are no edges, in the order in which they first occur -/
def newPairs (m : Mesh α) (keys : List (VertexId × VertexId)) : List (VertexId × VertexId) :=
  (keys.removeAll m.pairs).eraseDups

theorem mem_newPairs {keys : List (VertexId × VertexId)} {k : VertexId × VertexId} :
    k ∈ m.newPairs keys ↔ k ∈ keys ∧ k ∉ m.pairs := by
  unfold newPairs
  rw [List.mem_eraseDups, List.removeAll, List.mem_filter]
  simp

section
variable [Scalar α]

theorem plainEdge_edgeKey (a b : VertexId) :
    (plainEdge (edgeKey a b).1 (edgeKey a b).2 : Edge α) = plainEdge a b := by
  unfold plainEdge
  rw [edgeKey_of_le (edgeKey_fst_le a b)]

theorem filter_isFeature_plain (ks : List (VertexId × VertexId)) :
    (ks.map fun k => (plainEdge k.1 k.2 : Edge α)).filter Edge.isFeature = [] := by
  refine List.filter_eq_nil_iff.mpr fun x hx => ?_
  obtain ⟨k, _, rfl⟩ := List.mem_map.mp hx
  exact Bool.false_ne_true

/-- pairs that are looked up get plain edges after the old ones -/
theorem Joining.edges_eq {keys : List (VertexId × VertexId)}
    {done : List ((VertexId × VertexId) × TriangleId)} (h : Joining m keys done m')
    (tab : m.Tabled) :
    m'.edges.toList = m.edges.toList ++ (m.newPairs keys).map fun k => plainEdge k.1 k.2 := by
  have hpairs : m'.pairs = m.pairs ++ m.newPairs keys := by
    rw [h.pairs_eq, List.eraseDups_append, eraseDups_eq_self tab.pairs_nodup]
    rfl
  refine List.ext_getElem? fun i => ?_
  by_cases hi : i < m.edges.size
  · rw [List.getElem?_append_left hi, Array.getElem?_toList, Array.getElem?_toList,
      Array.getElem?_eq_getElem hi]
    exact h.old (Array.getElem?_eq_getElem hi)
  · have hlen : m.pairs.length = m.edges.size := by
      rw [pairs, List.length_map, Array.length_toList]
    have hnew : m'.pairs[i]? = (m.newPairs keys)[i - m.edges.size]? := by
      rw [hpairs, List.getElem?_append_right (by omega), hlen]
    rw [List.getElem?_append_right (by rw [Array.length_toList]; omega), Array.length_toList,
      List.getElem?_map, ← hnew, pairs, List.getElem?_map, Array.getElem?_toList]
    cases hx : m'.edges[i]? with
    | none => rfl
    | some x =>
      rcases h.fresh hx with hold | ⟨a, b, rfl, _⟩
      · exact absurd (Array.getElem?_eq_some_iff.mp hold).1 hi
      · exact congrArg some (plainEdge_edgeKey a b).symm

end

/-! ## the old edges -/

/-- the edge is a feature, or a side of a triangle -/
def survives (m : Mesh α) (x : Edge α) : Bool :=
  x.isFeature || (sideScan m.triangles.toList).contains x.ends

theorem survives_iff {x : Edge α} :
    m.survives x = true ↔ x.isFeature = true ∨ x.ends ∈ sideScan m.triangles.toList := by
  rw [survives, Bool.or_eq_true, List.contains_iff_mem]

theorem isUsed_eq_survives (x : Edge α) : isUsed (x, m.trianglesOn x.ends) = m.survives x := by
  rw [Bool.eq_iff_iff, isUsed_iff, survives_iff, trianglesOn_ne_nil_iff]

theorem Tabled.map_fst_slots (tab : m.Tabled) : m.slots.map Prod.fst = m.edges.toList :=
  List.map_fst_zip (by
    rw [Array.length_toList, Array.length_toList, tab.size_eq])

/-- every edge stands with the triangles that have it as a side -/
theorem Adjacent.slots_eq (adj : m.Adjacent) (tab : m.Tabled) :
    m.slots = m.edges.toList.map fun x => (x, m.trianglesOn x.ends) := by
  refine List.ext_getElem? fun i => ?_
  have hget : m.edges.toList[i]? = m.edges[i]? := Array.getElem?_toList
  rw [List.getElem?_map, hget]
  cases hx : m.edges[i]? with
  | none =>
    rw [List.getElem?_eq_none]
    · rfl
    · rw [tab.length_slots]
      exact Array.getElem?_eq_none_iff.mp hx
  | some x => exact getElem?_slots.mpr ⟨hx, adj.present hx⟩

theorem Dropped.edges_eq {R : EdgeId → EdgeId → Prop} (h : Dropped m R m') (tab : m.Tabled)
    (adj : m.Adjacent) : m'.edges.toList = m.edges.toList.filter m.survives := by
  rw [← h.tabled.map_fst_slots, h.slots_eq, adj.slots_eq tab, List.filter_map, List.map_map]
  simp only [Function.comp_def, isUsed_eq_survives]
  exact List.map_id' _

/-! ## the edges after an update -/

section
variable [Scalar α]

/-- the edges that survive, as they are and in their order, and then a plain edge for each side that
has none, in the order in which the sides first occur -/
def refreshedEdges (m : Mesh α) : List (Edge α) :=
  m.edges.toList.filter m.survives
    ++ (m.newPairs (sideScan m.triangles.toList)).map fun k => plainEdge k.1 k.2

/-- a new edge joins the pair that it is inserted for -/
theorem ends_new {triangles : List (Triple VertexId)} {k : VertexId × VertexId}
    (h : k ∈ m.newPairs (sideScan triangles)) : (plainEdge k.1 k.2 : Edge α).ends = k :=
  edgeKey_of_le (fst_le_snd_of_mem_sideScan (mem_newPairs.mp h).1)

theorem mem_refreshedEdges {x : Edge α} : x ∈ m.refreshedEdges ↔
    x ∈ m.edges ∧ m.survives x = true ∨
      x.ends ∈ m.newPairs (sideScan m.triangles.toList) ∧ x = plainEdge x.ends.1 x.ends.2 := by
  rw [refreshedEdges, List.mem_append, List.mem_filter, Array.mem_toList_iff, List.mem_map]
  refine or_congr_right ⟨?_, fun ⟨hk, hx⟩ => ⟨x.ends, hk, hx.symm⟩⟩
  rintro ⟨k, hk, rfl⟩
  rw [ends_new hk]
  exact ⟨hk, rfl⟩

/-- the pairs are the sides of the triangles and those of the feature edges -/
theorem mem_ends_refreshedEdges {k : VertexId × VertexId} :
    k ∈ m.refreshedEdges.map Edge.ends ↔
      k ∈ sideScan m.triangles.toList ∨ ∃ x ∈ m.edges, x.isFeature = true ∧ x.ends = k := by
  rw [List.mem_map]
  simp only [mem_refreshedEdges, survives_iff]
  refine ⟨?_, ?_⟩
  · rintro ⟨x, ⟨hx, hf | hside⟩ | ⟨hnew, _⟩, rfl⟩
    · exact .inr ⟨x, hx, hf, rfl⟩
    · exact .inl hside
    · exact .inl (mem_newPairs.mp hnew).1
  · rintro (hside | ⟨x, hx, hf, rfl⟩)
    · by_cases hk : k ∈ m.pairs
      · obtain ⟨x, hx, rfl⟩ := List.mem_map.mp hk
        exact ⟨x, .inl ⟨Array.mem_toList_iff.mp hx, .inr hside⟩, rfl⟩
      · have hnew := mem_newPairs.mpr ⟨hside, hk⟩
        have hends : (plainEdge k.1 k.2 : Edge α).ends = k := ends_new hnew
        exact ⟨plainEdge k.1 k.2, .inr (hends.symm ▸ ⟨hnew, rfl⟩), hends⟩
    · exact ⟨x, .inl ⟨hx, .inl hf⟩, rfl⟩

/-- features survive, and no new edge is one -/
theorem filter_isFeature_refreshedEdges :
    m.refreshedEdges.filter Edge.isFeature = m.edges.toList.filter Edge.isFeature := by
  rw [refreshedEdges, List.filter_append, filter_isFeature_plain, List.append_nil,
    List.filter_filter]
  refine List.filter_congr fun x _ => ?_
  rw [survives]
  cases x.isFeature <;> rfl

theorem Dropped.edges_refreshed {joined : Mesh α} {R : EdgeId → EdgeId → Prop}
    (h : Dropped joined R m') (hjoined : Joined m m.numberedTriangles joined) (tab : m.Tabled) :
    m'.edges.toList = m.refreshedEdges := by
  have hup := hjoined.updated
  have hsame : joined.survives = m.survives := by
    funext x
    unfold survives
    rw [triangles_of_withoutEdges hup.frame]
  have hjoin := hjoined.1.edges_eq tab
  rw [← sideList, map_fst_sideList] at hjoin
  rw [h.edges_eq hup.tabled hup.adjacent, hsame, hjoin, List.filter_append, refreshedEdges]
  congr 1
  refine List.filter_eq_self.mpr fun x hx => ?_
  obtain ⟨k, hk, rfl⟩ := List.mem_map.mp hx
  rw [survives_iff, ends_new hk]
  exact .inr (mem_newPairs.mp hk).1

end

/-! ## a completed update -/

/-- stars are in sync as long as the feature edges and their ends are the same -/
theorem InSync.of_old (h : m.InSync) (marks : m.Marks) (features : m'.featureEdges = m.featureEdges)
    (stars : m'.featureStars = m.featureStars)
    (old : ∀ {e : EdgeId} {x : Edge α}, m.edges[e]? = some x → m'.edges[e]? = some x) :
    m'.InSync := by
  have ends : ∀ v, ∀ e ∈ m.featureEdges.toList, m'.endsAt v e = m.endsAt v e := by
    intro v e he
    have hx := Array.getElem?_eq_getElem (marks.lt_size e (ExtTreeSet.mem_toList.mp he))
    unfold endsAt
    rw [hx, old hx]
  intro v
  rw [stars, features, h v, List.flatMap_congr (ends v)]

section
variable [Scalar α]

/-- `m'` is `m` after a completed update of its edges -/
structure Refreshed (m m' : Mesh α) : Prop where
  edges_eq : m'.edges.toList = m.refreshedEdges
  mem_pairs : ∀ k, k ∈ m'.pairs ↔
    k ∈ sideScan m.triangles.toList ∨ ∃ x ∈ m.edges, x.isFeature = true ∧ x.ends = k
  /-- the feature edges are the same, with their curve tags and in the same order -/
  features_eq : m'.edges.toList.filter Edge.isFeature = m.edges.toList.filter Edge.isFeature
  tabled : m'.Tabled
  adjacent : m'.Adjacent
  feature : ∀ e, e ∈ m'.featureEdges ↔ m'.IsFeature e
  inSync : m.InSync → m'.InSync
  vertices : m'.vertices = m.vertices
  triangles : m'.triangles = m.triangles
  lines : m'.lines = m.lines
  singularities : m'.singularities = m.singularities
  again : m'.updateEdges = .ok m'

/-- a completed update has found few triangles at each pair -/
theorem Refreshed.few (h : Refreshed m m') (k : VertexId × VertexId) :
    (m.trianglesOn k).length ≤ 2 := by
  rw [← trianglesOn_of_triangles h.triangles]
  exact h.adjacent.few k

/-- a completed update keeps features, drops just the useless edges, and need not be repeated -/
theorem Kept.refreshed (h : m.Kept) (hok : m.updateEdges = .ok m') : Refreshed m m' := by
  obtain ⟨_, _, hseen⟩ := h.traced
  obtain ⟨joined, hjoin, hlast⟩ := bind_eq_ok_iff.mp hok
  have hjoined := joinAll_spec hseen.tabled hjoin
  obtain ⟨last, R, hlast', hdrop⟩ := hjoined.dropped h.marks
  rw [leaving_eq_ok_iff, hlast'] at hlast
  obtain rfl := Except.ok.inj hlast
  have hup := hjoined.updated
  have hnew := hdrop.renewed hup
  have hedges := hdrop.edges_refreshed hjoined hseen.tabled
  exact {
    edges_eq := hedges
    mem_pairs := fun k => by
      rw [pairs, hedges]
      exact mem_ends_refreshedEdges
    features_eq := by
      rw [hedges]
      exact filter_isFeature_refreshedEdges
    tabled := hnew.tabled
    adjacent := hnew.adjacent
    feature := hnew.marks.feature
    inSync := fun hsync => hdrop.inSync (hsync.of_old h.marks
      (featureEdges_of_withoutEdges hup.frame) (featureStars_of_withoutEdges hup.frame) hup.old)
    vertices := (congrArg Mesh.vertices hnew.frame :)
    triangles := triangles_of_withoutDerived hnew.frame
    lines := (congrArg Mesh.lines hnew.frame :)
    singularities := (congrArg Mesh.singularities hnew.frame :)
    again := hnew.tabled.updateEdges_self hnew.adjacent hnew.used }

/-! ## when an update completes -/

/-- an update completes, or stops on the third triangle of a pair -/
theorem updateEdges_outcome (tab : m.Tabled) (marks : m.Marks) :
    (∃ m', m.updateEdges = .ok m') ∨
    ∃ stopped before k t after, m.updateEdges = .error stopped ∧
      m.sideList = before ++ (k, t) :: after ∧ (owners before k).length = 2 ∧
      (∀ k', (owners before k').length ≤ 2) ∧
      stopped.fault = .mesh (.nonManifoldEdge k.1 k.2) := by
  cases hjoin : m.numberedTriangles.foldlM joinTriangle m.clearAdjacency with
  | ok joined =>
    obtain ⟨last, _, hlast, _⟩ := (joinAll_spec tab hjoin).dropped marks
    exact .inl ⟨last, bind_eq_ok_iff.mpr ⟨joined, hjoin, leaving_eq_ok_iff.mpr hlast⟩⟩
  | error stopped =>
    obtain ⟨pre, x, post, k, hsplit, hfault, hstuck⟩ := joinAll_stuck tab hjoin
    obtain ⟨before, t, after, hside, hfull, hfew⟩ := hstuck.next hsplit
    exact .inr ⟨stopped, before, k, t, after, bind_eq_error_iff.mpr (.inl hjoin), hside, hfull,
      hfew, hfault⟩

end
end Mesh
end DiskCut
