import DiskCut.Proofs.CutGraph.Trim
import DiskCut.Proofs.Forest.Growth
import DiskCut.Proofs.Pipeline

/-!
# Which edges are cut

On a coherent mesh the edges of the graph are those that no tree crosses, and what trimming leaves
of them is the cut graph with the open boundary.

* `Slit m f h p g`     the forest `f` grown by the visits `h`, trimmed to `g` by the removals `p`
* `IsAnchored m v`     vertex `v` is singular, or an end of a feature edge or an open edge
* `inGraph_iff`        the graph has every edge but the parent edges
* `live_iff`           what is left of it is cut or open
* `isUncut_iff`        an edge that is not cut is a parent edge or was removed
* `walk_of_dual`       the graph joins the corners of triangles in one part of the dual graph
* `Staged.slit`, `Obtained.slit`   every result on a constrained mesh is such a forest with its trimming
-/

namespace DiskCut
open Std
namespace Mesh
variable {α : Type}

structure Slit (m : Mesh α) (f : SpanningForest) (h : List Visit) (p : List Removal)
    (g : CutGraph) : Prop where
  coherent : m.Coherent
  spanning : m.Spanning f h
  trimmed : m.Trimmed f.candidates p g

def IsAnchored (m : Mesh α) (v : VertexId) : Prop :=
  v ∈ m.singularities ∨ ∃ e, m.IsEnd e v ∧ (m.IsFeature e ∨ m.IsOpen e)

/-- edge `e` has two triangles, and no cut follows it -/
def IsUncut (m : Mesh α) (g : CutGraph) (e : EdgeId) : Prop := m.IsInner e ∧ e ∉ g.edges

section
variable {m : Mesh α} {K : ExtTreeSet EdgeId} {e : EdgeId} {t u : TriangleId} {v w : VertexId}

theorem IsInner.not_isOpen (he : m.IsInner e) : ¬ m.IsOpen e := by
  obtain ⟨t, u, hts⟩ := he
  intro ⟨w, hw⟩
  rw [hts] at hw
  cases hw

/-- an edge of a coherent mesh has one triangle or two -/
theorem Coherent.isOpen_or_isInner (hm : m.Coherent) (he : e < m.edges.size) :
    m.IsOpen e ∨ m.IsInner e := by
  obtain ⟨t, ts, hts, hmem⟩ := hm.exists_incident he
  have hlen := hm.length_le_two hts
  match ts, hlen with
  | [], _ => cases hmem
  | [x], _ => exact .inl ⟨x, hts⟩
  | [x, y], _ => exact .inr ⟨x, y, hts⟩

theorem Coherent.isBoundary_iff (hm : m.Coherent) : m.IsBoundary e ↔ m.IsOpen e := by
  refine ⟨?_, ?_⟩
  · intro ⟨ts, hts, hlen⟩
    have he := (Array.getElem?_eq_some_iff.mp hts).1
    rw [hm.tabled.size_eq] at he
    refine (hm.isOpen_or_isInner he).resolve_right fun ⟨t, u, htu⟩ => ?_
    rw [hts] at htu
    rw [Option.some.inj htu] at hlen
    exact Nat.lt_irrefl _ hlen
  · intro ⟨t, ht⟩
    exact ⟨[t], ht, Nat.one_lt_two⟩

/-- trimming can read all that it needs of a coherent mesh -/
theorem Coherent.trimmable (hm : m.Coherent) (hK : ∀ e ∈ K, e < m.edges.size) :
    m.Trimmable K where
  ends_lt := hm.ends_lt
  end_lt := by
    intro e x hx
    obtain ⟨t, ht⟩ := hm.exists_incident (Array.getElem?_eq_some_iff.mp hx).1
    exact hm.corner_lt_of_isCorner (hm.isCorner_of_incident ht ⟨x, hx, .inr rfl⟩)
  size_eq := hm.tabled.size_eq
  feature := hm.feature
  singular_lt := hm.singular_lt
  candidate_lt := hK

end

section
variable {m : Mesh α} {f : SpanningForest} {h : List Visit}
  {p : List Removal} {g : CutGraph} {e : EdgeId} {t u : TriangleId} {v w : VertexId}

theorem Spanning.candidate_lt (fit : m.Fitted) (hs : m.Spanning f h) (he : e ∈ f.candidates) :
    e < m.edges.size := by
  rcases ((hs.candidates e).mp he).1 with hfeature | ⟨t, u, htu⟩
  · exact hfeature.lt_size
  · exact fit.lt_size_of_incident ⟨_, htu, List.mem_cons_self⟩

namespace Slit
variable (hs : m.Slit f h p g)
include hs

/-- the graph has every edge but the parent edges -/
theorem inGraph_iff (he : e < m.edges.size) : m.InGraph f.candidates e ↔ ¬ IsParent h e := by
  have hg := hs.spanning.grown
  unfold InGraph
  rw [hs.spanning.candidates, hs.coherent.isBoundary_iff]
  refine ⟨?_, ?_⟩
  · rintro (⟨_, hnot⟩ | hfeature | hopen) hparent
    · exact hnot hparent
    · exact (hg.isPlain_of_isParent hparent).not_isFeature hfeature
    · exact (hg.isInner_of_isParent hs.coherent.toFitted hparent).not_isOpen hopen
  · intro hnot
    rcases hs.coherent.isOpen_or_isInner he with hopen | hinner
    · exact .inr (.inr hopen)
    · exact .inl ⟨.inr hinner, hnot⟩

theorem isRemovable_iff : m.IsRemovable f.candidates e ↔
    m.IsPlain e ∧ m.IsInner e ∧ ¬ IsParent h e := by
  unfold IsRemovable
  rw [hs.spanning.candidates]
  refine ⟨?_, ?_⟩
  · intro hx
    obtain ⟨⟨hkind, hnot⟩, hplain⟩ := hx
    exact ⟨hplain, hkind.resolve_left hplain.not_isFeature, hnot⟩
  · intro hx
    obtain ⟨hplain, hinner, hnot⟩ := hx
    exact ⟨⟨.inr hinner, hnot⟩, hplain⟩

/-- feature edges are in the graph and stay -/
theorem mem_of_isFeature (he : m.IsFeature e) : e ∈ g.edges := by
  have hnot : ¬ IsParent h e := fun hparent =>
    (hs.spanning.grown.isPlain_of_isParent hparent).not_isFeature he
  rw [hs.trimmed.edges, hs.spanning.candidates]
  refine ⟨⟨.inl he, hnot⟩, fun x hx heq => ?_⟩
  have hremovable := hs.trimmed.peeled.removable x hx
  rw [heq] at hremovable
  exact hremovable.2.not_isFeature he

/-- what is left of the graph is cut or open -/
theorem live_iff : m.Live f.candidates p e ↔ e ∈ g.edges ∨ m.IsOpen e := by
  refine ⟨?_, ?_⟩
  · intro ⟨hgraph, hleft⟩
    rcases hgraph with hK | hfeature | hboundary
    · exact .inl ((hs.trimmed.edges e).mpr ⟨hK, hleft⟩)
    · exact .inl (hs.mem_of_isFeature hfeature)
    · exact .inr (hs.coherent.isBoundary_iff.mp hboundary)
  · intro hcase
    rcases hcase with hcut | hopen
    · obtain ⟨hK, hleft⟩ := (hs.trimmed.edges e).mp hcut
      exact ⟨.inl hK, hleft⟩
    · refine hs.trimmed.peeled.live_of_fixed
        (.inr (.inr (hs.coherent.isBoundary_iff.mpr hopen))) fun hremovable => ?_
      exact (hs.isRemovable_iff.mp hremovable).2.1.not_isOpen hopen

theorem isUncut_iff : m.IsUncut g e ↔ IsParent h e ∨ ∃ x ∈ p, x.edge = e := by
  have hg := hs.spanning.grown
  have fit := hs.coherent.toFitted
  unfold IsUncut
  rw [hs.trimmed.edges, hs.spanning.candidates]
  refine ⟨?_, ?_⟩
  · intro ⟨hinner, hnot⟩
    by_contra hneither
    rw [not_or, not_exists] at hneither
    exact hnot ⟨⟨.inr hinner, hneither.1⟩, fun x hx heq => hneither.2 x ⟨hx, heq⟩⟩
  · intro hcase
    rcases hcase with hparent | ⟨x, hx, rfl⟩
    · exact ⟨hg.isInner_of_isParent fit hparent, fun hcut => hcut.1.2 hparent⟩
    · have hremovable := hs.isRemovable_iff.mp (hs.trimmed.peeled.removable x hx)
      exact ⟨hremovable.2.1, fun hcut => hcut.2 x hx rfl⟩

theorem isPlain_of_isUncut (he : m.IsUncut g e) : m.IsPlain e := by
  rcases hs.isUncut_iff.mp he with hparent | ⟨x, hx, rfl⟩
  · exact hs.spanning.grown.isPlain_of_isParent hparent
  · exact (hs.trimmed.peeled.removable x hx).2

/-- an anchored vertex is no dangling end -/
theorem ne_leaf (hv : m.IsAnchored v) : ∀ x ∈ p, v ≠ x.leaf := by
  rintro x hx rfl
  rcases hv with hsingular | ⟨e, hend, hkind⟩
  · exact hs.trimmed.peeled.regular x hx hsingular
  · refine hs.trimmed.peeled.not_live_leaf x hx e (hs.live_iff.mpr ?_) hend
    exact hkind.imp_left hs.mem_of_isFeature

/-- the graph joins the corners of triangles in one part of the dual graph -/
theorem walk_of_dual (ht : m.IsCorner t v) (hu : m.IsCorner u w)
    (hdual : Relation.ReflTransGen m.Dual t u) : m.Walk (m.InGraph f.candidates) v w := by
  have fit := hs.coherent.toFitted
  have hg := hs.spanning.grown
  obtain ⟨x, hx, rfl⟩ := hs.spanning.seen t ht.lt_size
  obtain ⟨y, hy, rfl⟩ := hs.spanning.seen u hu.lt_size
  have hroot := (hg.root_eq_iff hs.spanning.closed hx hy).mpr hdual
  refine (hg.linked fit x hx y hy hroot v w ht hu).mono fun e he => ?_
  obtain ⟨hnot, z, _, _, hinc⟩ := he
  exact (hs.inGraph_iff (fit.lt_size_of_incident hinc)).mpr hnot

end Slit
end

/-! ## results of the pipeline -/

section
variable [Scalar α] [Extended α] [Trig α] {m : Mesh α} {options : Options α} {r : CutResult α}

omit [Trig α] in
/-- the forest and the cut graph that a run finds on the cut mesh -/
theorem Staged.slit {c : FeatureCut α} {f : SpanningForest} (coh : c.mesh.Coherent)
    (h : m.Staged options c f r) : ∃ visits p, c.mesh.Slit f visits p r.cutGraph := by
  obtain ⟨visits, hspan⟩ := spanningForest_spec coh.toFitted h.forest
  obtain ⟨g, p, hg, htrimmed⟩ := trimCutGraph_spec
    (coh.trimmable fun e he => hspan.candidate_lt coh.toFitted he)
  obtain rfl := Except.ok.inj (hg.symm.trans h.trimmed)
  exact ⟨visits, p, coh, hspan, htrimmed⟩

theorem Obtained.slit (hm : Obtained m) (hc : m.Constrained)
    (hr : (m.computeCutGraph options).result = .ok r) :
    ∃ f h p, r.mesh.Slit f h p r.cutGraph ∧ r.numComponents = f.numComponents := by
  obtain ⟨c, f, hstaged⟩ := computeCutGraph_ok hc hr
  obtain ⟨c', s, hok, hcut⟩ := hm.cut
  obtain rfl := Except.ok.inj (hok.symm.trans hstaged.cut)
  obtain ⟨h, p, hs⟩ := hstaged.slit hcut.coherent
  rw [hstaged.mesh]
  exact ⟨f, h, p, hs, hstaged.numComponents⟩

end
end Mesh
end DiskCut
