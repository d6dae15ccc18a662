import DiskCut.Proofs.CutGraph.Slit
import DiskCut.Proofs.FeatureCut.Topology

/-!
# The cut graph on the input mesh

An edge of the cut mesh comes from the edge of the input between the vertices that its ends come
from.  Read in that way, the cut graph has each feature edge of the input once for each of its
copies, and each other edge at most once.

* `CutResult.inputEnds? r e`   the vertices of the input that the ends of edge `e` come from
* `CutResult.copiesOf r k`     the edges of the cut mesh that come from a pair of vertices
* `Staged.inputEnds?_eq_some_iff`   they are the edges that lie over the one between the two
* `Staged.inputVertexPairs_ok`   the pairs are found, one for each edge of the cut graph
* `count_keys_cutGraph`        a pair occurs once for each of its copies in the cut graph
* `keysOf pairs`               pairs without regard to their order
* `InputPairs m r pairs`       which edges of `m` the pairs are, and how often
* `inputVertexPairs_spec`      so it is with every result on a mesh that the library gives
-/

namespace DiskCut
open Std
variable {α : Type}

/-- the vertices of the input, in increasing order, that the ends of edge `e` come from -/
def CutResult.inputEnds? (r : CutResult α) (e : EdgeId) : Option (VertexId × VertexId) := do
  let x ← r.mesh.edges[e]?
  return edgeKey (← r.origin[x.ends.1]?) (← r.origin[x.ends.2]?)

/-- the edges of the cut mesh that come from a pair of vertices of the input -/
def CutResult.copiesOf (r : CutResult α) (k : VertexId × VertexId) : List EdgeId :=
  (List.range r.mesh.edges.size).filter fun e => r.inputEnds? e == some k

/-- pairs of vertices without regard to their order -/
def keysOf (pairs : List (VertexId × VertexId)) : List (VertexId × VertexId) :=
  pairs.map fun p => edgeKey p.1 p.2

/-- the members of two lists without repetition are counted alike -/
theorem length_eq_of_mem_iff {β : Type} {xs ys : List β} (hxs : xs.Nodup) (hys : ys.Nodup)
    (h : ∀ x, x ∈ xs ↔ x ∈ ys) : xs.length = ys.length :=
  ((List.perm_ext_iff_of_nodup hxs hys).mpr h).length_eq

namespace Mesh

/-- the pairs of vertices of the input mesh `m` that a cut graph is told by -/
structure InputPairs (m : Mesh α) (r : CutResult α) (pairs : List (VertexId × VertexId)) :
    Prop where
  /-- every pair is an edge -/
  edge : ∀ p ∈ pairs, ∃ (e : EdgeId) (x : Edge α), m.edges[e]? = some x ∧ x.ends = edgeKey p.1 p.2
  /-- a feature edge occurs once for each of its copies -/
  feature : ∀ (e : EdgeId) (x : Edge α), m.edges[e]? = some x → x.isFeature = true →
    (keysOf pairs).count x.ends = (r.copiesOf x.ends).length ∧
      ((r.copiesOf x.ends).length = 1 ∨ (r.copiesOf x.ends).length = 2)
  plain : ∀ (e : EdgeId) (x : Edge α), m.edges[e]? = some x → x.isFeature = false →
    (keysOf pairs).count x.ends ≤ 1
  /-- an edge with one triangle that is no feature does not occur -/
  boundary : ∀ (e : EdgeId) (x : Edge α), m.edges[e]? = some x → x.isFeature = false →
    m.IsOpen e → (keysOf pairs).count x.ends = 0

section
variable {r : CutResult α} {e : EdgeId} {k : VertexId × VertexId}

theorem inputEnds?_eq_some_iff : r.inputEnds? e = some k ↔
    ∃ x a b, r.mesh.edges[e]? = some x ∧ r.origin[x.ends.1]? = some a ∧
      r.origin[x.ends.2]? = some b ∧ edgeKey a b = k := by
  unfold CutResult.inputEnds?
  simp only [Option.bind_eq_bind, Option.bind_eq_some_iff, Option.pure_def, Option.some.injEq]
  grind

theorem mem_copiesOf : e ∈ r.copiesOf k ↔ r.inputEnds? e = some k := by
  unfold CutResult.copiesOf
  rw [List.mem_filter, List.mem_range, beq_iff_eq]
  refine ⟨fun h => h.2, fun h => ⟨?_, h⟩⟩
  obtain ⟨x, _, _, hx, _⟩ := inputEnds?_eq_some_iff.mp h
  exact (Array.getElem?_eq_some_iff.mp hx).1

theorem nodup_copiesOf (r : CutResult α) (k : VertexId × VertexId) : (r.copiesOf k).Nodup :=
  List.nodup_range.filter _

/-- a pair that stands for edges of a list occurs once for each edge that comes from it -/
theorem count_keys {es : List EdgeId} {pairs : List (VertexId × VertexId)}
    (h : List.Forall₂ (fun e p => r.inputEnds? e = some (edgeKey p.1 p.2)) es pairs) :
    (keysOf pairs).count k = (es.filter fun e => r.inputEnds? e == some k).length := by
  induction h with
  | nil => rfl
  | @cons e p es pairs hep _ ih =>
    unfold keysOf at ih ⊢
    rw [List.map_cons, List.count_cons, ih, List.filter_cons, hep]
    by_cases hk : edgeKey p.1 p.2 = k
    · simp [hk]
    · simp [hk]

/-- a pair occurs once for each of its copies in the cut graph -/
theorem count_keys_cutGraph {pairs : List (VertexId × VertexId)}
    (h : List.Forall₂ (fun e p => r.inputEnds? e = some (edgeKey p.1 p.2)) r.cutGraph.edges.toList
      pairs) (k : VertexId × VertexId) :
    (keysOf pairs).count k = (r.copiesOf k).countP r.cutGraph.contains := by
  rw [count_keys h, List.countP_eq_length_filter]
  refine length_eq_of_mem_iff ((nodup_toList _).filter _) ((nodup_copiesOf r k).filter _) ?_
  intro e
  rw [List.mem_filter, List.mem_filter, mem_copiesOf, ExtTreeSet.mem_toList, beq_iff_eq, and_comm]
  rfl

end

/-! ## copies of edges -/

section
variable [Scalar α] [Extended α] {m : Mesh α} {options : Options α} {c : FeatureCut α}
  {f : SpanningForest} {r : CutResult α} {s : Separation} {visits : List Visit} {p : List Removal}
  {e e' : EdgeId} {x : Edge α}

namespace Staged
variable (h : m.Staged options c f r)
include h

theorem inputEnds?_eq_some_iff (hx : m.edges[e]? = some x) :
    r.inputEnds? e' = some x.ends ↔ m.Over c e' e := by
  rw [Mesh.inputEnds?_eq_some_iff, h.mesh, h.origin]
  unfold Over FeatureCut.originOf
  simp only [fetch_eq_ok_iff, hx]
  grind

/-- the copies of an edge are the edges that lie over it -/
theorem mem_copiesOf (hx : m.edges[e]? = some x) : e' ∈ r.copiesOf x.ends ↔ m.Over c e' e :=
  Mesh.mem_copiesOf.trans (h.inputEnds?_eq_some_iff hx)

theorem exists_edge (hcut : Cut m c s) (coh : m.Coherent) {k : VertexId × VertexId}
    (hk : r.inputEnds? e' = some k) :
    ∃ (e : EdgeId) (x : Edge α), m.edges[e]? = some x ∧ x.ends = k := by
  obtain ⟨x', _, _, hx', _⟩ := Mesh.inputEnds?_eq_some_iff.mp hk
  rw [h.mesh] at hx'
  obtain ⟨e, hover⟩ := hcut.exists_over coh.toFitted (Array.getElem?_eq_some_iff.mp hx').1
  obtain ⟨_, x, _, _, _, hx, _⟩ := id hover
  have hends := (h.inputEnds?_eq_some_iff hx).mpr hover
  exact ⟨e, x, hx, Option.some.inj (hends.symm.trans hk)⟩

/-- an edge with one image has one copy -/
theorem length_copiesOf_of_sole (hx : m.edges[e]? = some x)
    (hover : ∀ e'', m.Over c e'' e ↔ e'' = e') : (r.copiesOf x.ends).length = 1 := by
  have hmem : ∀ e'', e'' ∈ r.copiesOf x.ends ↔ e'' ∈ [e'] := fun e'' => by
    rw [h.mem_copiesOf hx, hover, List.mem_singleton]
  exact length_eq_of_mem_iff (nodup_copiesOf r _) (List.nodup_singleton e') hmem

/-- a feature edge has one copy or two -/
theorem length_copiesOf_of_isFeature (hcut : Cut m c s) (coh : m.Coherent)
    (hx : m.edges[e]? = some x) (he : m.IsFeature e) :
    (r.copiesOf x.ends).length = 1 ∨ (r.copiesOf x.ends).length = 2 := by
  have top := hcut.cutTopology coh
  rcases coh.isOpen_or_isInner he.lt_size with ⟨t, ht⟩ | ⟨t, u, htu⟩
  · obtain ⟨e', hover, _⟩ := top.boundary e t he ht
    exact .inl (h.length_copiesOf_of_sole hx hover)
  · by_cases hfan : ∀ v, m.IsEnd e v → m.SameFan v t u
    · obtain ⟨e', hover, _⟩ := top.whole e t u he htu hfan
      exact .inl (h.length_copiesOf_of_sole hx hover)
    · push Not at hfan
      obtain ⟨e₁, e₂, hne, hover, _⟩ := top.split e t u he htu hfan
      have hmem : ∀ e', e' ∈ r.copiesOf x.ends ↔ e' ∈ [e₁, e₂] := fun e' => by
        rw [h.mem_copiesOf hx, hover]
        simp
      exact .inr (length_eq_of_mem_iff (nodup_copiesOf r _) (by simp [hne]) hmem)

/-! ## the pairs -/

/-- the pairs are found, one for each edge of the cut graph -/
theorem inputVertexPairs_ok (hcut : Cut m c s) (coh : m.Coherent)
    (hs : c.mesh.Slit f visits p r.cutGraph) : ∃ pairs, r.inputVertexPairs = .ok pairs ∧
      List.Forall₂ (fun e p => r.inputEnds? e = some (edgeKey p.1 p.2)) r.cutGraph.edges.toList
        pairs := by
  unfold CutResult.inputVertexPairs CutGraph.vertexPairs
  refine mapM_mapM_spec fun e' he' => ?_
  have hK := ((hs.trimmed.edges e').mp (ExtTreeSet.mem_toList.mp he')).1
  have hlt := hs.spanning.candidate_lt hs.coherent.toFitted hK
  obtain ⟨e, x', x, a, b, hx', hx, ha, hb, hends⟩ := hcut.exists_over coh.toFitted hlt
  unfold FeatureCut.originOf at ha hb
  rw [← h.mesh] at hx'
  rw [← h.origin] at ha hb
  refine ⟨x'.ends, (a, b), ?_, ?_, Mesh.inputEnds?_eq_some_iff.mpr ⟨x', a, b, hx',
    fetch_eq_ok_iff.mp ha, fetch_eq_ok_iff.mp hb, rfl⟩⟩
  · unfold edge
    rw [fetch_eq_ok_iff.mpr hx']
    rfl
  · rw [ha, hb]
    rfl

theorem inputPairs (hcut : Cut m c s) (coh : m.Coherent)
    (hs : c.mesh.Slit f visits p r.cutGraph) {pairs : List (VertexId × VertexId)}
    (hpairs : List.Forall₂ (fun e p => r.inputEnds? e = some (edgeKey p.1 p.2))
      r.cutGraph.edges.toList pairs) : InputPairs m r pairs := by
  refine ⟨?_, ?_, ?_, ?_⟩
  · intro q hq
    obtain ⟨i, hi⟩ := List.mem_iff_getElem?.mp hq
    obtain ⟨e', _, hends⟩ := exists_of_forall₂ hpairs.flip hi
    exact h.exists_edge hcut coh hends
  · intro e x hx hfeature
    have he : m.IsFeature e := ⟨x, hx, hfeature⟩
    refine ⟨?_, h.length_copiesOf_of_isFeature hcut coh hx he⟩
    rw [count_keys_cutGraph hpairs, List.countP_eq_length]
    intro e' he'
    have hover := (h.mem_copiesOf hx).mp he'
    exact ExtTreeSet.contains_iff_mem.mpr
      (hs.mem_of_isFeature ((hcut.isFeature_iff_of_over coh hover).mpr he))
  · intro e x hx hplain
    obtain ⟨e', hover, _⟩ := hcut.plain_image coh ⟨x, hx, hplain⟩
    rw [count_keys_cutGraph hpairs, ← h.length_copiesOf_of_sole hx hover]
    exact List.countP_le_length
  · intro e x hx hplain hopen
    obtain ⟨e', hover, hplain', hlist⟩ := hcut.plain_image coh ⟨x, hx, hplain⟩
    rw [count_keys_cutGraph hpairs, List.countP_eq_zero]
    intro e'' he'' hmem
    obtain rfl := (hover e'').mp ((h.mem_copiesOf hx).mp he'')
    have hK := ((hs.trimmed.edges e'').mp (ExtTreeSet.contains_iff_mem.mp hmem)).1
    rcases ((hs.spanning.candidates e'').mp hK).1 with hfeature | hinner
    · exact hplain'.not_isFeature hfeature
    · unfold IsOpen at hopen
      rw [← hlist] at hopen
      exact hinner.not_isOpen hopen

end Staged

variable [Trig α]

/-- Read in the numbers of the input, every cut graph of a mesh that the library gives has all
copies of each feature edge, at most one copy of each other edge, and no other edge of the
boundary. -/
theorem inputVertexPairs_spec (hm : Obtained m) (hc : m.Constrained)
    (hr : (m.computeCutGraph options).result = .ok r) :
    ∃ pairs, r.inputVertexPairs = .ok pairs ∧ InputPairs m r pairs := by
  obtain ⟨c, f, hstaged⟩ := computeCutGraph_ok hc hr
  obtain ⟨c', s, hok, hcut⟩ := hm.cut
  obtain rfl := Except.ok.inj (hok.symm.trans hstaged.cut)
  obtain ⟨visits, p, hs⟩ := hstaged.slit hcut.coherent
  obtain ⟨pairs, hpairs, hall⟩ := hstaged.inputVertexPairs_ok hcut hm.coherent hs
  exact ⟨pairs, hpairs, hstaged.inputPairs hcut hm.coherent hs hall⟩

theorem inputPairs_threeTriangles : ∃ m r, threeTriangles.result = .ok m ∧ m.Constrained ∧
    (m.computeCutGraph default).result = .ok r ∧
    ∃ pairs, r.inputVertexPairs = .ok pairs ∧ InputPairs m r pairs := by
  obtain ⟨m, r, hm, hc, hr, _⟩ := exists_threeTrianglesCut (p := fun _ => true) (by decide +kernel)
  exact ⟨m, r, hm, hc, hr, inputVertexPairs_spec (.ofTriangles hm) hc hr⟩

end
end Mesh
end DiskCut
