import DiskCut.Proofs.Mesh.Survivors

/-!
# Edges that carry the marks of the lines

Updates of the edges do not look at the lines, they keep the marks that they find.  These are the
marks of the lines all the same: the lines of a mesh are edges, and a line is only added along with
its edge.

* `Lined m`               every edge carries the mark of its last line, and every line is an edge
* `Lined.push`            an edge more, with or without a line of its own
* `Refreshed.lined`       a completed update keeps the marks
* `Rebuilt.lined`, `Derived.lined`   a derivation makes them
* `described? m k`        what a mesh knows about the pair `k`, by whatever number
* `Lined.described?_eq`   which its lines and triangles tell for every pair that is an edge
-/

namespace DiskCut
open Std
namespace Mesh
variable {α : Type} {m m' : Mesh α}

/-- edges are marked as the lines say, and every line is an edge -/
structure Lined (m : Mesh α) : Prop where
  marked : ∀ {e : EdgeId} {x : Edge α}, m.edges[e]? = some x →
    (x.isFeature, x.curve) = lineMark m.lines.toList x.ends
  covers : ∀ line ∈ m.lines.toList, m.Covers line

theorem lined_of_nil (edges : m.edges = #[]) (lines : m.lines = #[]) : m.Lined where
  marked := by
    intro e x hx
    rw [edges] at hx
    cases hx
  covers := by
    intro line hline
    rw [lines] at hline
    cases hline

/-- vertices, triangles, singularities and the lists of feature edges are not looked at -/
theorem Lined.of_same (h : m.Lined) (edges : m'.edges = m.edges)
    (index : m'.edgeIndex = m.edgeIndex) (lines : m'.lines = m.lines) : m'.Lined where
  marked := by
    intro e x hx
    rw [edges] at hx
    rw [lines]
    exact h.marked hx
  covers := by
    intro line hline
    rw [lines] at hline
    exact (h.covers line hline).of_edgeIndex index

/-- a pair that is no edge is not marked -/
theorem Lined.lineMark_of_fresh (h : m.Lined) {k : VertexId × VertexId}
    (fresh : m.edgeIndex[k]? = none) : lineMark m.lines.toList k = (false, none) := by
  have hnil : linesOn m.lines.toList k = [] := by
    refine List.filter_eq_nil_iff.mpr fun line hline hk => ?_
    obtain ⟨e, he⟩ := h.covers line hline
    rw [of_decide_eq_true hk, fresh] at he
    cases he
  rw [lineMark, hnil]
  rfl

/-! ## edits -/

/-- an edge more, with the lines that give it its mark -/
theorem Lined.push (h : m.Lined) (tab : m.Tabled) {x : Edge α} {lines : Array Line}
    (features : ExtTreeSet EdgeId) (fresh : m.edgeIndex[x.ends]? = none)
    (mark : (x.isFeature, x.curve) = lineMark lines.toList x.ends)
    (others : ∀ k, k ≠ x.ends → lineMark lines.toList k = lineMark m.lines.toList k)
    (grown : ∀ line ∈ lines.toList,
      line ∈ m.lines.toList ∨ edgeKey line.ends.1 line.ends.2 = x.ends) :
    Lined { m.pushEdge x with featureEdges := features, lines } where
  marked := by
    intro e y hy
    change (m.edges.push x)[e]? = some y at hy
    rw [Array.getElem?_push] at hy
    split at hy
    · exact Option.some.inj hy ▸ mark
    · have hne : y.ends ≠ x.ends := by
        intro hends
        have hindex := tab.index_of_edge hy
        rw [hends, fresh] at hindex
        cases hindex
      rw [h.marked hy]
      exact (others y.ends hne).symm
  covers := by
    intro line hline
    unfold Covers
    change ∃ e, (m.edgeIndex.insert x.ends m.edges.size)[_]? = some e
    simp only [ExtTreeMap.getElem?_insert, pairOrder_eq_iff]
    rcases grown line hline with hold | hnew
    · obtain ⟨e, he⟩ := h.covers line hold
      split
      · exact ⟨_, rfl⟩
      · exact ⟨e, he⟩
    · exact ⟨_, if_pos hnew.symm⟩

section
variable [Scalar α]

theorem Lined.insertEdge (h : m.Lined) (tab : m.Tabled) (a b : VertexId) :
    (m.insertEdge a b).1.Lined := by
  rcases insertEdge_cases m a b with ⟨e, _, hins⟩ | ⟨hnone, hins⟩
  · rw [hins]
    exact h
  · rw [hins]
    exact h.push tab (x := plainEdge a b) m.featureEdges hnone (h.lineMark_of_fresh hnone).symm
      (fun _ _ => rfl) fun _ hline => .inl hline

theorem Lined.insertFeatureEdge (h : m.Lined) (tab : m.Tabled) (a b : VertexId)
    (curve : Option Int) : (m.insertFeatureEdge a b curve).1.Lined := by
  have hkey : edgeKey (edgeKey a b).1 (edgeKey a b).2 = edgeKey a b :=
    edgeKey_of_le (edgeKey_fst_le a b)
  rcases insertFeatureEdge_cases m a b curve with ⟨e, _, hins⟩ | ⟨hnone, hins⟩
  · rw [hins]
    exact h
  · rw [hins]
    refine h.push tab (x := featureEdge a b curve) _ hnone ?_ (fun k hk => ?_) fun line hline => ?_
    · rw [Array.toList_push]
      exact Eq.symm (lineMark_concat_of_eq hkey)
    · rw [Array.toList_push]
      refine lineMark_concat_of_ne fun heq => hk ?_
      exact heq.symm.trans hkey
    · rw [Array.toList_push, List.mem_append, List.mem_singleton] at hline
      exact hline.imp_right fun hline => by rw [hline]; exact hkey

omit [Scalar α] in
theorem Lined.setSingularity (h : m.Lined) {v : VertexId} {kind : SingularityKind}
    (hok : m.setSingularity v kind = .ok m') : m'.Lined := by
  obtain ⟨_, _, rfl⟩ := setSingularity_eq_ok_iff.mp hok
  exact h.of_same rfl rfl rfl

omit [Scalar α] in
theorem Lined.setCorner (h : m.Lined) {t : TriangleId} {corner : Nat} {v : VertexId}
    (hok : m.setCorner t corner v = .ok m') : m'.Lined := by
  obtain ⟨_, _, rfl⟩ := setCorner_eq_ok_iff.mp hok
  exact h.of_same rfl rfl rfl

omit [Scalar α] in
theorem Lined.updateFeatureIncidence (h : m.Lined) (hok : m.updateFeatureIncidence = .ok m') :
    m'.Lined := by
  obtain ⟨stars, _, hok⟩ := bind_eq_ok_iff.mp hok
  rw [pure_eq_ok_iff] at hok
  subst hok
  exact h.of_same rfl rfl rfl

theorem Lined.of_clearNormals (hm : m.Lined) (h : m'.clearNormals = m.clearNormals) :
    m'.Lined where
  marked := by
    intro e x hx
    obtain ⟨y, hy, hends, hfeature, hcurve⟩ := edge_of_clearNormals h hx
    rw [lines_of_outline (outline_of_clearNormals h), ← hends, ← hfeature, ← hcurve]
    exact hm.marked hy
  covers := by
    intro line hline
    rw [lines_of_outline (outline_of_clearNormals h)] at hline
    exact (hm.covers line hline).of_edgeIndex (edgeIndex_of_outline (outline_of_clearNormals h))

/-! ## updates and derivations -/

/-- features survive an update with their marks, and the new edges are on no line -/
theorem Refreshed.lined (h : Refreshed m m') (tab : m.Tabled) (hm : m.Lined) : m'.Lined where
  marked := by
    intro e x hx
    have hmem : x ∈ m.refreshedEdges := by
      rw [← h.edges_eq]
      exact Array.mem_toList_iff.mpr (Array.mem_of_getElem? hx)
    rw [h.lines]
    rcases mem_refreshedEdges.mp hmem with ⟨hold, _⟩ | ⟨hnew, hplain⟩
    · obtain ⟨d, hd⟩ := Array.mem_iff_getElem?.mp hold
      exact hm.marked hd
    · have hfresh : m.edgeIndex[x.ends]? = none := by
        rw [← Option.not_isSome_iff_eq_none, Option.isSome_iff_exists, ← tab.mem_pairs]
        exact (mem_newPairs.mp hnew).2
      rw [hm.lineMark_of_fresh hfresh, hplain]
      rfl
  covers := by
    intro line hline
    rw [h.lines] at hline
    obtain ⟨e, he⟩ := hm.covers line hline
    obtain ⟨x, hx, hends⟩ := tab.edge_of_index he
    have hflag : x.isFeature = true :=
      (congrArg Prod.fst (hm.marked hx)).trans (lineMark_flag.mpr ⟨line, hline, hends.symm⟩)
    exact h.tabled.mem_pairs.mp
      ((h.mem_pairs _).mpr (.inr ⟨x, Array.mem_of_getElem? hx, hflag, hends⟩))

/-- edges that a derivation marked carry the marks of the lines -/
theorem lined_of_given (given_eq : m'.given = m.given)
    (covers : ∀ line ∈ m'.lines.toList, m'.Covers line)
    (marked : ∀ {e : EdgeId} {x : Edge α}, m'.edges[e]? = some x →
      ∃ y : Edge α, y.isFeature = false ∧ y.curve = none ∧ x = markedBy m.lines.toList y) :
    m'.Lined where
  marked := by
    intro e x hx
    obtain ⟨y, hplain, hnone, rfl⟩ := marked hx
    rw [lines_of_given given_eq, ends_markedBy]
    exact lineMark_markedBy hplain hnone
  covers := covers

theorem Rebuilt.lined (h : Rebuilt m m') : m'.Lined := lined_of_given h.given_eq h.covers h.marked

theorem Derived.lined (h : Derived m m') : m'.Lined := lined_of_given h.given_eq h.covers h.marked

end

/-! ## what is known about a pair -/

/-- flag and curve tag of the edge with the ends `k`, and the triangles at it -/
def described? (m : Mesh α) (k : VertexId × VertexId) :
    Option ((Bool × Option Int) × List TriangleId) :=
  m.edgeIndex[k]?.bind fun e => m.edges[e]?.bind fun x =>
    m.edgeTriangles[e]?.map fun ts => ((x.isFeature, x.curve), ts)

/-- an edge has the mark that the lines give it, and the triangles with that side -/
theorem Lined.described?_eq (h : m.Lined) (tab : m.Tabled) (adj : m.Adjacent)
    (k : VertexId × VertexId) : m.described? k =
      if k ∈ m.pairs then some (lineMark m.lines.toList k, m.trianglesOn k) else none := by
  unfold described?
  cases hk : m.edgeIndex[k]? with
  | none =>
    have hno : k ∉ m.pairs := by
      rw [tab.mem_pairs, hk]
      exact fun ⟨_, he⟩ => nomatch he
    rw [if_neg hno]
    rfl
  | some e =>
    obtain ⟨x, hx, rfl⟩ := tab.edge_of_index hk
    rw [if_pos (tab.mem_pairs.mpr ⟨e, hk⟩), ← h.marked hx]
    simp only [Option.bind_some, hx, adj.present hx, Option.map_some]

end Mesh
end DiskCut
