import DiskCut.Proofs.CutGraph.Anchors
import DiskCut.Proofs.CutGraph.Disks
import DiskCut.Proofs.CutGraph.Leaves
import DiskCut.Proofs.CutGraph.Marked
import DiskCut.Proofs.CutGraph.Skeleton
import DiskCut.Proofs.FeatureCut.Again

/-!
# Singularities on a sphere

* `IsSphere m`            a closed connected mesh with the Euler count of the sphere, without feature
                          edges and with singular vertices
* `MinimalSubtree m K g`  the edges `K` are a spanning tree, and the graph `g` is its smallest part
                          that joins the singular vertices
* `Slit.isTree`           the candidates are a spanning tree
* `Slit.minimalSubtree`   what trimming leaves of it joins the singular vertices, no more
* `IsSphere.of_cut`       a cut changes nothing of this
* `computeCutGraph_sphere`   so the pipeline gives the smallest subtree

There is one tree of triangles, so all edges but the number of triangles less one are candidates, and
by the Euler count these are one fewer than the vertices; they join all vertices, as they do at the
start of any trimming.
-/

namespace DiskCut
open Std
namespace Mesh
variable {α : Type}

/-- a closed connected mesh with the Euler count of the sphere, without feature edges and with
singular vertices, all of them corners -/
structure IsSphere (m : Mesh α) : Prop where
  plain : ∀ e, ¬ m.IsFeature e
  inner : ∀ e < m.edges.size, m.IsInner e
  connected : ∀ t < m.triangles.size, ∀ u < m.triangles.size, Relation.ReflTransGen m.Dual t u
  euler : (m.usedVertices.size : Int) - m.edges.size + m.triangles.size = 2
  singular : ∃ v, v ∈ m.singularities
  used : ∀ v ∈ m.singularities, m.IsUsed v

/-- the edges `K` are a spanning tree of the used vertices, and the graph is its smallest part that
joins the singular ones -/
structure MinimalSubtree (m : Mesh α) (K : ExtTreeSet EdgeId) (g : CutGraph) : Prop where
  tree : (m.skeleton (· ∈ K)).IsTree
  size : K.size + 1 = m.usedVertices.size
  /-- the edges of the graph are those of the paths of the tree between singular vertices -/
  paths : ∀ e, e ∈ g.edges ↔ ∃ v w : {v // m.IsUsed v}, v.1 ∈ m.singularities ∧
    w.1 ∈ m.singularities ∧ ∃ p : (m.skeleton (· ∈ K)).Walk v w, p.IsPath ∧ m.LiesOn e p
  one : ∀ v, m.singularities.keys = [v] → ∀ e, e ∉ g.edges
  two : ∀ v w, m.singularities.keys = [v, w] →
    (∃ a b : {v // m.IsUsed v}, a.1 = v ∧ b.1 = w ∧ ∃ p : (m.skeleton (· ∈ g.edges)).Walk a b,
      p.IsPath ∧ ∀ e, e ∈ g.edges ↔ m.LiesOn e p) ∧ g.leaves m = .ok [v, w]
  /-- with the singular vertices it is a tree -/
  subtree : ((m.skeleton (· ∈ g.edges)).induce
    {v | v.1 ∈ m.singularities ∨ ∃ w, (m.skeleton (· ∈ g.edges)).Adj v w}).IsTree
  leaves : ∃ vs, g.leaves m = .ok vs ∧ ∀ v ∈ vs, v ∈ m.singularities

section
variable {m : Mesh α} {f : SpanningForest} {h : List Visit} {p : List Removal} {g : CutGraph}
  {e : EdgeId} {v w : VertexId} (hs : m.Slit f h p g) (sph : m.IsSphere)
include sph

omit hs in
theorem IsSphere.isPlain (he : e < m.edges.size) : m.IsPlain e :=
  (isPlain_iff he).mpr (sph.plain e)

omit hs in
theorem IsSphere.not_isOpen (fit : m.Fitted) : ¬ m.IsOpen e := by
  intro hopen
  obtain ⟨t, ht⟩ := id hopen
  have hinc : m.Incident e t := ⟨[t], ht, List.mem_singleton_self t⟩
  exact (sph.inner e (fit.lt_size_of_incident hinc)).not_isOpen hopen

namespace Slit
include hs

/-! ## the candidates -/

theorem mem_candidates_iff : e ∈ f.candidates ↔ e < m.edges.size ∧ ¬ IsParent h e := by
  refine ⟨?_, ?_⟩
  · intro he
    exact ⟨hs.spanning.candidate_lt hs.coherent.toFitted he, ((hs.spanning.candidates e).mp he).2⟩
  · intro ⟨hlt, hnot⟩
    exact (hs.spanning.candidates e).mpr ⟨.inr (sph.inner e hlt), hnot⟩

theorem inGraph_iff_mem : m.InGraph f.candidates e ↔ e ∈ f.candidates := by
  refine ⟨fun he => ?_, .inl⟩
  rcases he with hK | hfeature | hboundary
  · exact hK
  · exact absurd hfeature (sph.plain e)
  · exact absurd (hs.coherent.isBoundary_iff.mp hboundary) (sph.not_isOpen hs.coherent.toFitted)

theorem live_iff_mem : m.Live f.candidates p e ↔ e ∈ g.edges := by
  rw [hs.live_iff]
  exact or_iff_left (sph.not_isOpen hs.coherent.toFitted)

/-- there is one tree of triangles -/
theorem numComponents_eq_one : f.numComponents = 1 := by
  have hg := hs.spanning.grown
  obtain ⟨v, hv⟩ := sph.singular
  obtain ⟨t, ht⟩ := sph.used v hv
  obtain ⟨x, hx, _⟩ := hs.spanning.seen t ht.lt_size
  obtain ⟨y, hy, _, _, hnone⟩ := hg.exists_root x hx
  have hsole : ∀ t, t ∈ f.roots ↔ t ∈ [y.triangle] := by
    intro t
    rw [List.mem_singleton]
    refine ⟨?_, ?_⟩
    · intro ht
      obtain ⟨z, hz, hznone, rfl⟩ := hs.spanning.mem_roots.mp ht
      have hlt := hg.lt_size hs.coherent.toFitted
      have hroot := (hg.root_eq_iff hs.spanning.closed hz hy).mpr
        (sph.connected _ (hlt z hz) _ (hlt y hy))
      rwa [hg.root_eq_of_parent_none z hz hznone, hg.root_eq_of_parent_none y hy hnone] at hroot
    · rintro rfl
      exact hs.spanning.mem_roots.mpr ⟨y, hy, hnone, rfl⟩
  exact ((List.perm_ext_iff_of_nodup hs.spanning.nodup_roots (List.nodup_singleton _)).mpr
    hsole).length_eq

/-- each edge is a parent edge or a candidate -/
theorem length_parents_add :
    (h.filterMap Visit.parent).length + f.candidates.size = m.edges.size := by
  have hnodup : (h.filterMap Visit.parent ++ f.candidates.toList).Nodup := by
    rw [List.nodup_append]
    refine ⟨(List.nodup_append.mp hs.nodup_uncut).1, nodup_toList _, ?_⟩
    rintro e he d hd rfl
    obtain ⟨x, hx, hxe⟩ := List.mem_filterMap.mp he
    exact ((hs.mem_candidates_iff sph).mp (ExtTreeSet.mem_toList.mp hd)).2 ⟨x, hx, hxe⟩
  have hmem : ∀ e, e ∈ h.filterMap Visit.parent ++ f.candidates.toList ↔
      e ∈ List.range m.edges.size := by
    intro e
    rw [List.mem_append, List.mem_filterMap, ExtTreeSet.mem_toList, hs.mem_candidates_iff sph,
      List.mem_range]
    refine ⟨?_, ?_⟩
    · rintro (hparent | hcandidate)
      · obtain ⟨t, u, htu⟩ := hs.spanning.grown.isInner_of_isParent hs.coherent.toFitted hparent
        exact hs.coherent.lt_size_of_incident ⟨_, htu, List.mem_cons_self⟩
      · exact hcandidate.1
    · intro hlt
      by_cases hparent : IsParent h e
      · exact .inl hparent
      · exact .inr ⟨hlt, hparent⟩
  have hperm := (List.perm_ext_iff_of_nodup hnodup List.nodup_range).mpr hmem
  have hlen := hperm.length_eq
  rwa [List.length_append, ExtTreeSet.length_toList, List.length_range] at hlen

/-- one candidate fewer than vertices -/
theorem card_candidates : f.candidates.size + 1 = m.usedVertices.size := by
  have hone := hs.numComponents_eq_one sph
  have hsum := hs.length_parents_add sph
  have hlen := length_parents h
  rw [hs.spanning.length_roots, hs.spanning.length_visits hs.coherent.toFitted] at hlen
  have heuler := sph.euler
  omega

theorem connected : (m.skeleton (· ∈ f.candidates)).Connected := by
  obtain ⟨s, hs'⟩ := sph.singular
  have hused := sph.used s hs'
  rw [SimpleGraph.connected_iff_exists_forall_reachable]
  refine ⟨⟨s, hused⟩, fun ⟨v, hv⟩ => ?_⟩
  obtain ⟨t, ht⟩ := id hused
  obtain ⟨u, hu⟩ := id hv
  have hwalk := hs.walk_of_dual ht hu (sph.connected t ht.lt_size u hu.lt_size)
  exact hs.coherent.reachable_of_walk (hwalk.mono fun e he => (hs.inGraph_iff_mem sph).mp he) hused hv

/-- the candidates are a spanning tree of the used vertices -/
theorem isTree : (m.skeleton (· ∈ f.candidates)).IsTree := by
  have := hs.coherent.toFitted.finite_used
  rw [SimpleGraph.isTree_iff_connected_and_card]
  refine ⟨hs.connected sph, ?_⟩
  rw [hs.coherent.card_edgeSet fun e he => ((hs.mem_candidates_iff sph).mp he).1, card_used]
  exact hs.card_candidates sph

/-! ## what trimming leaves -/

theorem lt_of_mem (he : e ∈ g.edges) : e < m.edges.size :=
  ((hs.mem_candidates_iff sph).mp ((hs.trimmed.edges e).mp he).1).1

omit sph in
theorem skeleton_le : m.skeleton (· ∈ g.edges) ≤ m.skeleton (· ∈ f.candidates) :=
  skeleton_mono fun e he => ((hs.trimmed.edges e).mp he).1

/-- trimming ends when only singular vertices are leaves -/
theorem singular_of_isLeaf (hv : g.IsLeaf m v) : v ∈ m.singularities := by
  obtain ⟨e, he, hend, honly⟩ := hv
  by_contra hregular
  have hK := ((hs.trimmed.edges e).mp he).1
  exact hs.trimmed.done v e {
    regular := hregular
    removable := ⟨hK, sph.isPlain ((hs.mem_candidates_iff sph).mp hK).1⟩
    live := (hs.live_iff_mem sph).mpr he
    isEnd := hend
    only := fun d hd => honly d ((hs.live_iff_mem sph).mp hd) }

theorem noBareEnd : NoBareEnd (m.skeleton (· ∈ g.edges)) {v | v.1 ∈ m.singularities} := by
  intro v hv a hva
  have coh := hs.coherent
  obtain ⟨e, he, hjoin⟩ := coh.skeleton_adj.mp hva
  by_contra hnone
  refine hv (hs.singular_of_isLeaf sph ⟨e, he, hjoin.isEnd_left, fun d hd hend => ?_⟩)
  obtain ⟨b, hdb⟩ := coh.exists_across hend
  by_cases hba : b = a
  · rw [hba] at hdb
    exact coh.eq_of_joins hdb hjoin
  · exact absurd ⟨b, hba, (coh.adj_iff hdb).mpr hd⟩ hnone

/-- the singular vertices stay joined -/
theorem reachable_singular {v w : {v // m.IsUsed v}} (hv : v.1 ∈ m.singularities)
    (hw : w.1 ∈ m.singularities) : (m.skeleton (· ∈ g.edges)).Reachable v w := by
  obtain ⟨t, ht⟩ := v.2
  obtain ⟨u, hu⟩ := w.2
  have hwalk := hs.walk ht hu (sph.connected t ht.lt_size u hu.lt_size) (.inl hv) (.inl hw)
  refine hs.coherent.reachable_of_walk (hwalk.mono fun e he => ?_) v.2 w.2
  exact he.resolve_right (sph.not_isOpen hs.coherent.toFitted)

/-- an edge is cut when it is on the path of the tree between two singular vertices -/
theorem mem_edges_iff : e ∈ g.edges ↔ ∃ v w : {v // m.IsUsed v}, v.1 ∈ m.singularities ∧
    w.1 ∈ m.singularities ∧ ∃ q : (m.skeleton (· ∈ f.candidates)).Walk v w, q.IsPath ∧
      m.LiesOn e q := by
  have coh := hs.coherent
  have := coh.toFitted.finite_used
  have hadj {a b : {v // m.IsUsed v}} := adj_iff_marked_path (a := a) (b := b) (hs.isTree sph)
    hs.skeleton_le (hs.noBareEnd sph) fun v hv w hw => hs.reachable_singular sph hv hw
  refine ⟨?_, ?_⟩
  · intro he
    obtain ⟨a, b, hjoin⟩ := coh.exists_joins (hs.lt_of_mem sph he)
    obtain ⟨v, hv, w, hw, q, hq, hmem⟩ := hadj.mp ((coh.adj_iff hjoin).mpr he)
    exact ⟨v, w, hv, hw, q, hq, a, b, hjoin, hmem⟩
  · intro ⟨v, w, hv, hw, q, hq, a, b, hjoin, hmem⟩
    exact (coh.adj_iff hjoin).mp (hadj.mpr ⟨v, hv, w, hw, q, hq, hmem⟩)

theorem leaves_ok : ∃ vs, g.leaves m = .ok vs ∧ vs.Pairwise (· < ·) ∧
    ∀ v, v ∈ vs ↔ g.IsLeaf m v := by
  have coh := hs.coherent
  refine CutGraph.leaves_ok (fun hx => ?_) fun e he => hs.lt_of_mem sph he
  exact coh.ne_of_joins ⟨_, hx, (coh.tabled.edgeKey_ends hx).symm⟩

/-! ## one or two singular vertices -/

theorem not_mem_of_one (hone : m.singularities.keys = [v]) : e ∉ g.edges := by
  intro he
  have hsole : ∀ {w : {v // m.IsUsed v}}, w.1 ∈ m.singularities → w.1 = v := by
    intro w hw
    rw [← ExtTreeMap.mem_keys, hone, List.mem_singleton] at hw
    exact hw
  obtain ⟨a, b, ha, hb, q, hq, x, y, _, hmem⟩ := (hs.mem_edges_iff sph).mp he
  obtain rfl : a = b := Subtype.ext ((hsole ha).trans (hsole hb).symm)
  rw [SimpleGraph.Walk.edges_eq_nil.mpr (SimpleGraph.Walk.isPath_iff_nil.mp hq)] at hmem
  exact List.not_mem_nil hmem

theorem exists_path_of_two (htwo : m.singularities.keys = [v, w]) :
    ∃ a b : {v // m.IsUsed v}, a.1 = v ∧ b.1 = w ∧ ∃ q : (m.skeleton (· ∈ g.edges)).Walk a b,
      q.IsPath ∧ ∀ e, e ∈ g.edges ↔ m.LiesOn e q := by
  have coh := hs.coherent
  have := coh.toFitted.finite_used
  have hkeys : ∀ x, x ∈ m.singularities ↔ x = v ∨ x = w := by
    intro x
    rw [← ExtTreeMap.mem_keys, htwo]
    simp
  have hv := (hkeys v).mpr (.inl rfl)
  have hw := (hkeys w).mpr (.inr rfl)
  let a : {v // m.IsUsed v} := ⟨v, sph.used v hv⟩
  let b : {v // m.IsUsed v} := ⟨w, sph.used w hw⟩
  have hpair : ∀ x ∈ {v : {v // m.IsUsed v} | v.1 ∈ m.singularities}, x = a ∨ x = b := fun x hx =>
    ((hkeys x.1).mp hx).imp Subtype.ext Subtype.ext
  obtain ⟨q, hq, hadj⟩ := exists_path_of_pair ((hs.isTree sph).isAcyclic.anti hs.skeleton_le)
    (hs.noBareEnd sph) hpair (hs.reachable_singular sph (v := a) (w := b) hv hw)
  refine ⟨a, b, rfl, rfl, q, hq, fun e => ⟨fun he => ?_, fun ⟨x, y, hjoin, hmem⟩ => ?_⟩⟩
  · obtain ⟨x, y, hjoin⟩ := coh.exists_joins (hs.lt_of_mem sph he)
    exact ⟨x, y, hjoin, (hadj x y).mp ((coh.adj_iff hjoin).mpr he)⟩
  · exact (coh.adj_iff hjoin).mp ((hadj x y).mpr hmem)

omit hs sph in
/-- a graph that consists of one path has the start of the path as a leaf -/
theorem isLeaf_of_path (coh : m.Coherent) {a b : {v // m.IsUsed v}}
    {q : (m.skeleton (· ∈ g.edges)).Walk a b} (hq : q.IsPath) (hnil : ¬ q.Nil)
    (hall : ∀ e, e ∈ g.edges ↔ m.LiesOn e q) : g.IsLeaf m a := by
  obtain ⟨e, he, hjoin⟩ := coh.skeleton_adj.mp (q.adj_snd hnil)
  refine ⟨e, he, hjoin.isEnd_left, fun d hd hend => ?_⟩
  obtain ⟨c, hc⟩ := coh.exists_across hend
  have hmem := (liesOn_iff hc).mp ((hall d).mp hd)
  rw [hq.eq_snd_of_mem_edges hmem] at hc
  exact coh.eq_of_joins hc hjoin

theorem leaves_of_two (htwo : m.singularities.keys = [v, w]) : g.leaves m = .ok [v, w] := by
  have coh := hs.coherent
  obtain ⟨vs, hvs, hlt, hmem⟩ := hs.leaves_ok sph
  obtain ⟨a, b, rfl, rfl, q, hq, hall⟩ := hs.exists_path_of_two sph htwo
  have hkeys : [a.1, b.1].Pairwise (· < ·) := by
    rw [← htwo]
    exact m.singularities.ordered_keys.imp Nat.compare_eq_lt.mp
  have hne : a ≠ b := by
    rintro rfl
    simp at hkeys
  have hback : ∀ e, e ∈ g.edges ↔ m.LiesOn e q.reverse := by
    intro e
    unfold LiesOn
    simp only [SimpleGraph.Walk.edges_reverse, List.mem_reverse]
    exact hall e
  rw [hvs, hlt.eq_of_mem_iff hkeys fun x => ?_]
  rw [hmem]
  refine ⟨fun hx => ?_, fun hx => ?_⟩
  · rw [← htwo]
    exact ExtTreeMap.mem_keys.mpr (hs.singular_of_isLeaf sph hx)
  · simp only [List.mem_cons, List.not_mem_nil, or_false] at hx
    rcases hx with rfl | rfl
    · exact isLeaf_of_path coh hq (fun hnil => hne hnil.eq) hall
    · exact isLeaf_of_path coh hq.reverse (fun hnil => hne hnil.eq.symm) hback

/-! ## all of it -/

theorem minimalSubtree : m.MinimalSubtree f.candidates g where
  tree := hs.isTree sph
  size := hs.card_candidates sph
  paths := fun e => hs.mem_edges_iff sph
  one := fun v hone e => hs.not_mem_of_one sph hone
  two := fun v w htwo => ⟨hs.exists_path_of_two sph htwo, hs.leaves_of_two sph htwo⟩
  subtree := by
    have := hs.coherent.toFitted.finite_used
    obtain ⟨v, hv⟩ := sph.singular
    exact isTree_induce (hs.isTree sph) hs.skeleton_le (hs.noBareEnd sph)
      (fun v hv w hw => hs.reachable_singular sph hv hw) ⟨⟨v, sph.used v hv⟩, hv⟩
  leaves := by
    obtain ⟨vs, hvs, _, hmem⟩ := hs.leaves_ok sph
    exact ⟨vs, hvs, fun v hv => hs.singular_of_isLeaf sph ((hmem v).mp hv)⟩

end Slit
end

/-! ## the cut of a sphere -/

section
variable {m m' : Mesh α} {e : EdgeId}

/-- coherent meshes of the same triangles have the same edges, under other numbers perhaps -/
theorem Coherent.exists_edge_of_triangles (coh : m.Coherent) (coh' : m'.Coherent)
    (htriangles : m'.triangles = m.triangles) {x : Edge α} (hx : m.edges[e]? = some x) :
    ∃ (e' : EdgeId) (x' : Edge α), m'.edges[e']? = some x' ∧ x'.ends = x.ends ∧
      m'.edgeTriangles[e']? = m.edgeTriangles[e]? := by
  have hsame : m'.trianglesOn x.ends = m.trianglesOn x.ends := by
    unfold trianglesOn sideList numberedTriangles
    rw [htriangles]
  obtain ⟨t, ht⟩ := List.exists_mem_of_ne_nil _ (coh.covered hx)
  rw [← hsame] at ht
  obtain ⟨vs, hvs, j, hj⟩ := mem_trianglesOn.mp ht
  obtain ⟨es, _, hside⟩ := coh'.adjacent.side hvs
  obtain ⟨x', hx', hends⟩ := coh'.tabled.edge_of_index (hside j)
  rw [hj] at hends
  refine ⟨_, x', hx', hends, ?_⟩
  rw [coh'.adjacent.present hx', coh.adjacent.present hx, hends, hsame]

theorem Coherent.size_edges_le (coh : m.Coherent) (coh' : m'.Coherent)
    (htriangles : m'.triangles = m.triangles) : m.edges.size ≤ m'.edges.size := by
  have hedge : ∀ e : Fin m.edges.size, ∃ (e' : Fin m'.edges.size),
      m'.edges[e'].ends = m.edges[e].ends := by
    intro e
    obtain ⟨e', x', hx', hends, _⟩ :=
      coh.exists_edge_of_triangles coh' htriangles (Array.getElem?_eq_getElem e.2)
    obtain ⟨hlt, rfl⟩ := Array.getElem?_eq_some_iff.mp hx'
    exact ⟨⟨e', hlt⟩, hends⟩
  choose next hnext using hedge
  have hinj : Function.Injective next := by
    intro e d hed
    have hends : m.edges[e].ends = m.edges[d].ends := by
      rw [← hnext e, ← hnext d, hed]
    exact Fin.ext (coh.tabled.eq_of_ends (Array.getElem?_eq_getElem e.2)
      (Array.getElem?_eq_getElem d.2) hends)
  simpa using Fintype.card_le_of_injective next hinj

/-- a mesh without feature edges keeps its triangles in a cut -/
theorem Cut.triangles_eq_of_plain {c : FeatureCut α} {s : Separation} (h : Cut m c s)
    (coh : m.Coherent) (plain : ∀ e, ¬ m.IsFeature e) : c.mesh.triangles = m.triangles := by
  have hone : m.OneFan := fun t u v ⟨e, he, _⟩ => absurd he (plain e)
  rw [h.triangles, hone.triangles_eq coh.proper h.separated]

theorem IsSphere.of_cut {c : FeatureCut α} {s : Separation} (sph : m.IsSphere) (coh : m.Coherent)
    (h : Cut m c s) : c.mesh.IsSphere := by
  have htriangles := h.triangles_eq_of_plain coh sph.plain
  have hused : c.mesh.usedVertices = m.usedVertices := by
    unfold usedVertices
    rw [htriangles]
  have hsize : c.mesh.edges.size = m.edges.size := Nat.le_antisymm
    (h.coherent.size_edges_le coh htriangles.symm) (coh.size_edges_le h.coherent htriangles)
  exact {
    plain := by
      intro e' he'
      obtain ⟨e, he⟩ := h.exists_over coh.toFitted he'.lt_size
      exact sph.plain e ((h.isFeature_iff_of_over coh he).mp he')
    inner := by
      intro e' he'
      obtain ⟨e, x, hx, _, hlist⟩ := h.coherent.exists_edge_of_triangles coh htriangles.symm
        (Array.getElem?_eq_getElem he')
      unfold IsInner
      rw [← hlist]
      exact sph.inner e (Array.getElem?_eq_some_iff.mp hx).1
    connected := by
      intro t ht u hu
      rw [htriangles] at ht hu
      exact Relation.ReflTransGen.mono (fun _ _ => (h.dual_iff coh).mpr) _ _
        (sph.connected t ht u hu)
    euler := by
      rw [hused, hsize, htriangles]
      exact sph.euler
    singular := by
      rw [h.singularities]
      exact sph.singular
    used := by
      intro v hv
      rw [h.singularities] at hv
      rw [← mem_usedVertices, hused, mem_usedVertices]
      exact sph.used v hv }

theorem IsSphere.featureVertices_eq (sph : m.IsSphere) (coh : m.Coherent) :
    m.featureVertices = [] := by
  refine List.eq_nil_iff_forall_not_mem.mpr fun v hv => ?_
  obtain ⟨e, he, _⟩ := coh.starred.mem_featureVertices.mp hv
  exact sph.plain e ((coh.feature e).mp he)

theorem IsSphere.constrained (sph : m.IsSphere) : m.Constrained := by
  obtain ⟨v, hv⟩ := sph.singular
  obtain ⟨t, ht⟩ := sph.used v hv
  exact ⟨Nat.zero_lt_of_lt ht.lt_size, .inr ⟨v, hv⟩⟩

end

section
variable [Scalar α] [Extended α] [Trig α] {m : Mesh α}

/-- on a sphere with singular vertices the pipeline completes; the candidates of its forest are a
spanning tree, and the cut graph is the smallest subtree that joins the singular vertices -/
theorem computeCutGraph_sphere [LawfulLengths α] (h : Obtained m) (sph : m.IsSphere)
    (options : Options α) :
    ∃ r f, (m.computeCutGraph options).result = .ok r ∧
      r.mesh.spanningForest r.distances options.order = .ok f ∧
      r.mesh.triangles = m.triangles ∧ r.mesh.singularities = m.singularities ∧
      MinimalSubtree r.mesh f.candidates r.cutGraph := by
  have coh := h.coherent
  obtain ⟨c, s, hok, hcut⟩ := h.cut
  have sph' := sph.of_cut coh hcut
  rw [computeCutGraph_of_constrained sph.constrained]
  have hframes : ∀ c, m.cutAlongFeatures = .ok c →
      ∃ k, (c.mesh.framesIfWanted options.frames).result = .ok k := by
    intro c' hok'
    obtain rfl := Except.ok.inj (hok.symm.trans hok')
    exact framesIfWanted_ok (.inr (sph'.featureVertices_eq hcut.coherent))
  obtain ⟨r, hr⟩ := cutStages_complete coh hframes
  obtain ⟨c', f, hstaged⟩ := cutStages_ok hr
  obtain rfl := Except.ok.inj (hok.symm.trans hstaged.cut)
  obtain ⟨visits, p, hs⟩ := hstaged.slit hcut.coherent
  refine ⟨r, f, hr, ?_⟩
  rw [hstaged.mesh]
  exact ⟨hstaged.forest, hcut.triangles_eq_of_plain coh sph.plain, hcut.singularities,
    hs.minimalSubtree sph'⟩

end

/-! ## a tetrahedron -/

/-- a test that finds spheres any two triangles of which share an edge -/
def passesSphere (m : Mesh α) : Bool :=
  m.edges.all (!·.isFeature) && m.edgeTriangles.all (·.length == 2)
    && (List.range m.triangles.size).all (fun t => (List.range m.triangles.size).all fun u =>
      m.edgeTriangles.any fun ts => ts.contains t && ts.contains u)
    && m.usedVertices.size + m.triangles.size == m.edges.size + 2
    && !m.singularities.keys.isEmpty && m.singularities.keys.all m.usedVertices.contains

theorem isSphere_of_passes {m : Mesh α} (coh : m.Coherent) (h : m.passesSphere = true) :
    m.IsSphere := by
  unfold passesSphere at h
  simp only [Bool.and_eq_true, List.all_eq_true, Array.any_eq_true', Array.all_eq_true',
    List.mem_range, beq_iff_eq, Bool.not_eq_true', List.contains_eq_mem, decide_eq_true_iff] at h
  obtain ⟨⟨⟨⟨⟨hplain, hinner⟩, hshare⟩, heuler⟩, hsome⟩, hused⟩ := h
  have plain : ∀ e, ¬ m.IsFeature e := by
    intro e ⟨x, hx, hf⟩
    rw [hplain x (Array.mem_of_getElem? hx)] at hf
    cases hf
  exact {
    plain := plain
    inner := by
      intro e he
      rw [← coh.tabled.size_eq] at he
      have hts := Array.getElem?_eq_getElem he
      obtain ⟨t, u, htu⟩ := List.length_eq_two.mp (hinner _ (Array.mem_of_getElem? hts))
      exact ⟨t, u, htu ▸ hts⟩
    connected := by
      intro t ht u hu
      obtain ⟨ts, hts, htmem, humem⟩ := hshare t ht u hu
      obtain ⟨e, he⟩ := Array.mem_iff_getElem?.mp hts
      have hinc : m.Incident e t := ⟨ts, he, htmem⟩
      have hlt := coh.lt_size_of_incident hinc
      exact .single ⟨e, (isPlain_iff hlt).mpr (plain e), hinc, ts, he, humem⟩
    euler := by omega
    singular := by
      obtain ⟨v, hv⟩ := List.exists_mem_of_ne_nil _ (List.isEmpty_eq_false_iff.mp hsome)
      exact ⟨v, ExtTreeMap.mem_keys.mp hv⟩
    used := fun v hv =>
      mem_usedVertices.mp (ExtTreeSet.contains_iff_mem.mp (hused v (ExtTreeMap.mem_keys.mpr hv))) }

theorem sphere_tetrahedron : ∃ m₀ m₁ m, tetrahedron.result = .ok m₀ ∧
    m₀.setSingularity 0 .two = .ok m₁ ∧ m₁.setSingularity 3 .two = .ok m ∧ m.IsSphere ∧
    ∃ r f, (m.computeCutGraph default).result = .ok r ∧
      r.mesh.spanningForest r.distances (default : Options Float).order = .ok f ∧
      r.mesh.triangles = m.triangles ∧ r.mesh.singularities = m.singularities ∧
      MinimalSubtree r.mesh f.candidates r.cutGraph := by
  have htest : yields tetrahedron.result (fun m₀ => yields (m₀.setSingularity 0 .two) fun m₁ =>
      yields (m₁.setSingularity 3 .two) passesSphere) = true := by decide +kernel
  obtain ⟨m₀, h₀, htest⟩ := exists_of_yields htest
  obtain ⟨m₁, h₁, htest⟩ := exists_of_yields htest
  obtain ⟨m, hm, htest⟩ := exists_of_yields htest
  have hobtained : Obtained m := .setSingularity (.setSingularity (.ofTriangles h₀) h₁) hm
  have sph := isSphere_of_passes hobtained.coherent htest
  exact ⟨m₀, m₁, m, h₀, h₁, hm, sph, computeCutGraph_sphere hobtained sph default⟩

end Mesh
end DiskCut
