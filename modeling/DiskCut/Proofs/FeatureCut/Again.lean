import DiskCut.Proofs.FeatureCut.Drawing
import DiskCut.Proofs.FeatureCut.Topology
import DiskCut.Proofs.Binary64.Lengths
import DiskCut.Proofs.Completion

/-!
# Cutting a cut mesh

* `OneFan m`                the feature edges at a vertex are in one fan
* `OneFan.triangles_eq`     so no corner moves in a cut
* `Severed m`               moreover the feature edges come first, in the order of the lines
* `Cut.severed`             a cut mesh is severed
* `Severed.cutAlongFeatures_eq`   a cut of a severed mesh moves no corner, copies no vertex and
                            completes the drawing of the mesh
* `cutAlongFeatures_idempotent`   so a second cut gives the cut mesh back, and so does a second run
                            of the whole pipeline

On a severed mesh every fan that is reached is the first one at its vertex, which keeps the vertex.
Each feature edge is then inserted where it was, under the number it had.
-/

namespace DiskCut
open Std
namespace Mesh
variable {α : Type}

/-! ## severed meshes -/

/-- the triangles with a feature edge at a vertex are in one fan -/
def OneFan (m : Mesh α) : Prop :=
  ∀ (t u : TriangleId) (v : VertexId), m.HasRay v t → m.HasRay v u → m.SameFan v t u

/-- the mesh has nothing left to cut -/
structure Severed (m : Mesh α) : Prop where
  coherent : m.Coherent
  oneFan : m.OneFan
  line : ∀ {i : Nat} {line : Line}, m.lines[i]? = some line →
    ∃ x, m.edges[i]? = some x ∧ line = ⟨x.ends, x.curve⟩
  line_lt : ∀ e, e ∈ m.featureEdges ↔ e < m.lines.size

namespace Cut
variable {m : Mesh α} {c : FeatureCut α} {s : Separation} (h : Cut m c s) (coh : m.Coherent)
  {e e' : EdgeId} {t u : TriangleId} {v w : VertexId}
include h coh

/-- the ends of an image, seen from a triangle, are where the corners at the ends have moved -/
theorem isEnd_iff_of_over (he : m.Over c e' e) (ht : c.mesh.Incident e' t) :
    c.mesh.IsEnd e' w ↔ ∃ v, m.IsEnd e v ∧ m.cornerIn s.triangles t v = some w := by
  have fit := coh.toFitted
  obtain ⟨x', _, _, _, hx', _⟩ := id he
  obtain ⟨x, hx, _, hside⟩ := (h.over_iff fit hx' ht).mp he
  obtain ⟨p, q, hp, hq, hpq⟩ := sideIn_eq_some_iff.mp hside
  have hjoin : c.mesh.Joins e' p q := ⟨x', hx', hpq.symm⟩
  rw [hjoin.isEnd_iff]
  refine ⟨?_, ?_⟩
  · rintro (rfl | rfl)
    · exact ⟨x.ends.1, ⟨x, hx, .inl rfl⟩, hp⟩
    · exact ⟨x.ends.2, ⟨x, hx, .inr rfl⟩, hq⟩
  · intro ⟨v, ⟨y, hy, hv⟩, hw⟩
    rw [hx] at hy
    obtain rfl := Option.some.inj hy
    rcases hv with rfl | rfl
    · exact .inl (Option.some.inj (hw.symm.trans hp))
    · exact .inr (Option.some.inj (hw.symm.trans hq))

/-- a fan stays a fan where its corner has moved -/
theorem sameFan_image (ht : m.IsCorner t v) (hw : m.cornerIn s.triangles t v = some w)
    (htu : m.SameFan v t u) : c.mesh.SameFan w t u := by
  have fit := coh.toFitted
  induction htu with
  | refl => exact .refl
  | @tail a b hta hab ih =>
    obtain ⟨e, hplain, hend, ha, hb⟩ := hab
    obtain ⟨e', hover, hplain', hlist⟩ := h.plain_image coh hplain
    have hsame : ∀ t, c.mesh.Incident e' t ↔ m.Incident e t := by
      intro t
      unfold Incident
      rw [hlist]
    have hwa : m.cornerIn s.triangles a v = some w := by
      rw [← h.separated.cornerIn_eq_of_sameFan fit ht hta]
      exact hw
    have hend' := (h.isEnd_iff_of_over coh ((hover e').mpr rfl) ((hsame a).mpr ha)).mpr
      ⟨v, hend, hwa⟩
    exact ih.trans (Beside.sameFan ⟨e', hplain', hend', (hsame a).mpr ha, (hsame b).mpr hb⟩)

/-- a feature edge of the cut mesh at a vertex comes from one at the corner that moved there -/
theorem exists_reached_of_hasRay (ht : c.mesh.HasRay w t) :
    ∃ v, (t, v) ∈ s.reached ∧ m.cornerIn s.triangles t v = some w := by
  have fit := coh.toFitted
  obtain ⟨e', hfeature, hend, ht⟩ := ht
  obtain ⟨e, he⟩ := h.exists_over fit hfeature.lt_size
  obtain ⟨v, hv, hw⟩ := (h.isEnd_iff_of_over coh he ht).mp hend
  exact ⟨v, h.seen ((h.isFeature_iff_of_over coh he).mp hfeature) (h.incident_of_over fit he ht) hv,
    hw⟩

/-- nothing is left to cut in a cut mesh -/
theorem severed : c.mesh.Severed where
  coherent := h.coherent
  oneFan := by
    intro t u w ht hu
    have fit := coh.toFitted
    obtain ⟨v, hvt, hwt⟩ := h.exists_reached_of_hasRay coh ht
    obtain ⟨v', hvu, hwu⟩ := h.exists_reached_of_hasRay coh hu
    obtain rfl : v = v' := by
      have e := h.originOf_of_cornerIn fit hwt
      rw [h.originOf_of_cornerIn fit hwu] at e
      exact (Except.ok.inj e).symm
    exact h.sameFan_image coh (isCorner_of_cornerIn hwt) hwt
      (h.separated.apart hvt hvu (hwt.trans hwu.symm))
  line := by
    intro i line hline
    obtain ⟨x, hx, _, hline⟩ := h.line hline
    exact ⟨x, hx, hline⟩
  line_lt := h.line_lt

end Cut

/-! ## corners that stay -/

section
variable {m : Mesh α} {s : Separation} {t : TriangleId} {v : VertexId}

/-- the only fan with feature edges at a vertex keeps the vertex -/
theorem OneFan.cornerIn_eq (h : m.OneFan) (hs : Separated m s) (ht : m.IsCorner t v) :
    m.cornerIn s.triangles t v = some v := by
  by_cases hreached : (t, v) ∈ s.reached
  · obtain ⟨u, hu, hw⟩ := hs.claimed.mp (hs.first hreached)
    obtain ⟨seed, hseed, hfan⟩ := hs.ray hreached
    obtain ⟨seed', hseed', hfan'⟩ := hs.ray hu
    rw [hs.same hreached (hfan.symm.trans ((h _ _ _ hseed hseed').trans hfan')), hw]
  · exact hs.kept ht hreached

theorem OneFan.triangles_eq (h : m.OneFan) (proper : m.Proper) (hs : Separated m s) :
    s.triangles = m.triangles := by
  refine Array.ext hs.size fun t ht ht' => ?_
  have hvs := Array.getElem?_eq_getElem ht'
  have hws := Array.getElem?_eq_getElem ht
  have hcorner : ∀ k, s.triangles[t].get k = m.triangles[t].get k := by
    intro k
    have e := Proper.cornerIn_get proper hvs hws k
    rw [h.cornerIn_eq hs ⟨_, hvs, k, rfl⟩] at e
    exact (Option.some.inj e).symm
  exact Triple.ext (hcorner 0) (hcorner 1) (hcorner 2)

theorem Severed.triangles_eq (h : m.Severed) (hs : Separated m s) : s.triangles = m.triangles :=
  h.oneFan.triangles_eq h.coherent.proper hs

theorem Severed.origin_eq (h : m.Severed) (hs : Separated m s) :
    s.origin = (List.range m.vertices.size).toArray := by
  have hsize : s.origin.size = m.vertices.size := by
    refine Nat.le_antisymm (Nat.le_of_not_lt fun hlt => ?_) hs.le_size
    have hv := Array.getElem?_eq_getElem hlt
    obtain ⟨t, ht, hw⟩ := hs.copy (Nat.le_refl _) hv
    have hcorner := isCorner_of_cornerIn hw
    rw [h.oneFan.cornerIn_eq hs hcorner] at hw
    have hlt' := h.coherent.corner_lt_of_isCorner hcorner
    rw [Option.some.inj hw] at hlt'
    exact Nat.lt_irrefl _ hlt'
  refine Array.ext (by simp [hsize]) fun i hi _ => ?_
  rw [hsize] at hi
  have hv := hs.old hi
  rw [Array.getElem?_eq_getElem (by omega)] at hv
  rw [Option.some.inj hv, List.getElem_toArray, List.getElem_range]

end

/-! ## feature edges inserted where they were -/

section
variable [Scalar α] {m cut c : Mesh α} {e : EdgeId} {t : TriangleId} {x : Edge α}

/-- the line of an edge was inserted, if it was not known -/
def AtMost (cut : Mesh α) (line : Line) (c : Mesh α) : Prop := c = cut ∨ c = cut.drawLine line

theorem AtMost.drawLine {line : Line} (h : AtMost cut line c) : AtMost cut line (c.drawLine line) := by
  rcases h with rfl | rfl
  · exact .inr rfl
  · exact .inr (drawLine_drawLine cut line)

theorem triangles_drawLine (m : Mesh α) (line : Line) : (m.drawLine line).triangles = m.triangles := by
  rcases drawLine_cases m line with ⟨_, _, hline⟩ | ⟨_, hline⟩
  · rw [hline]
  · rw [hline]
    rfl

theorem AtMost.triangles_eq {line : Line} (h : AtMost cut line c) : c.triangles = cut.triangles := by
  rcases h with rfl | rfl
  · rfl
  · exact triangles_drawLine cut line

theorem AtMost.splitSide (h : AtMost cut ⟨x.ends, x.curve⟩ c) (p : VertexId × VertexId) :
    AtMost cut ⟨x.ends, x.curve⟩ (splitSide x c (p, p)) := by
  rw [splitSide_eq]
  split
  · rename_i hkey
    rw [← insertFeatureEdge_edgeKey, hkey]
    exact h.drawLine
  · exact h

/-- a triangle that has not moved sees its feature edge where it was -/
theorem AtMost.splitAt (h : AtMost cut ⟨x.ends, x.curve⟩ c) (unmoved : cut.triangles = m.triangles)
    {next : Mesh α} (hok : m.splitAt x c t = .ok next) : AtMost cut ⟨x.ends, x.curve⟩ next := by
  unfold Mesh.splitAt triangle at hok
  rw [h.triangles_eq, unmoved] at hok
  simp only [bind_eq_ok_iff, pure_eq_ok_iff] at hok
  obtain ⟨vs, hvs, vs', hvs', rfl⟩ := hok
  obtain rfl := Except.ok.inj (hvs.symm.trans hvs')
  refine List.foldlRecOn _ _ h fun c hc side hside => ?_
  obtain ⟨j, rfl⟩ := mem_zip_sides.mp hside
  exact hc.splitSide _

/-- a feature edge whose triangles have not moved is inserted once, as its line -/
theorem splitEdge_unmoved {P : VertexId × VertexId → Option Int → Prop} {frame : Mesh α}
    (hd : Drawn P frame cut) (coh : m.Coherent) (hx : m.edges[e]? = some x)
    (unmoved : frame.triangles = m.triangles) {next : Mesh α}
    (hok : m.splitEdge cut e = .ok next) : next = cut.drawLine ⟨x.ends, x.curve⟩ := by
  have fit := coh.toFitted
  have hmost : AtMost cut ⟨x.ends, x.curve⟩ next := by
    unfold Mesh.splitEdge edge at hok
    simp only [fetch_eq_ok_iff.mpr hx, bind_eq_ok_iff] at hok
    obtain ⟨_, hy, ts, _, hfold⟩ := hok
    obtain rfl := Except.ok.inj hy
    exact foldlM_invariant
      (fun _ _ _ _ hc hstep => AtMost.splitAt hc (hd.triangles.trans unmoved) hstep) (.inl rfl) hfold
  rcases hmost with rfl | rfl
  · -- nothing was inserted, so the pair was known
    obtain ⟨t, ht⟩ := coh.exists_incident (Array.getElem?_eq_some_iff.mp hx).1
    obtain ⟨next, hok', _, _, hknown⟩ := (hd.mono (Q := fun _ _ => True) fun _ _ _ => trivial).splitEdge
      fit hx (congrArg Array.size unmoved) fun _ _ _ _ => trivial
    obtain rfl := Except.ok.inj (hok.symm.trans hok')
    obtain ⟨k, i, hk, hi⟩ := hknown t ht
    obtain ⟨y, vs, hy, hvs, j, hj⟩ := fit.incident_iff.mp ht
    rw [hx] at hy
    obtain rfl := Option.some.inj hy
    rw [unmoved, ← hj, Proper.sideIn_keys fit.proper hvs hvs j, hj] at hk
    obtain rfl := Option.some.inj hk
    rw [← fit.tabled.edgeKey_ends hx] at hi
    exact (drawLine_of_known hi).symm
  · rfl

end

/-! ## the second cut -/

namespace Severed
variable [Scalar α] {m : Mesh α} (h : m.Severed)
include h

omit [Scalar α] in
theorem featureEdges_eq : m.featureEdges.toList = List.range m.lines.size := by
  have hlt : m.featureEdges.toList.Pairwise (· < ·) :=
    m.featureEdges.ordered_toList.imp Nat.compare_eq_lt.mp
  refine hlt.eq_of_mem_iff List.pairwise_lt_range fun e => ?_
  rw [ExtTreeSet.mem_toList, h.line_lt, List.mem_range]

omit [Scalar α] in
/-- the feature edges are numbered as the lines are -/
theorem eq_length_of_split {pre post : List EdgeId} {e : EdgeId}
    (hsplit : m.featureEdges.toList = pre ++ e :: post) : e = pre.length := by
  rw [h.featureEdges_eq] at hsplit
  have hlen := congrArg List.length hsplit
  rw [List.length_range, List.length_append, List.length_cons] at hlen
  have he := congrArg (·[pre.length]?) hsplit
  simp only [List.getElem?_range (show pre.length < m.lines.size by omega),
    List.getElem?_append_right (Nat.le_refl _), Nat.sub_self, List.getElem?_cons_zero] at he
  exact (Option.some.inj he).symm

/-- one feature edge more is drawn, its fans being where they were -/
theorem cutEdge_eq {state next : Separation × Mesh α} {pre post : List EdgeId} {e : EdgeId}
    (hsplit : m.featureEdges.toList = pre ++ e :: post)
    (hcut : Cutting m m.clearTopology pre state)
    (hdrawn : state.2 = m.clearTopology.drawLines (m.lines.toList.take pre.length))
    (hok : m.cutEdge state e = .ok next) : Cutting m m.clearTopology (pre ++ [e]) next ∧
      next.2 = m.clearTopology.drawLines (m.lines.toList.take (pre ++ [e]).length) := by
  have hmem : e ∈ m.featureEdges := by
    rw [← ExtTreeSet.mem_toList, hsplit]
    simp
  obtain ⟨next', hnext', hcut'⟩ :=
    hcut.cutEdge h.coherent.toFitted ((h.coherent.feature e).mp hmem)
  obtain rfl := Except.ok.inj (hnext'.symm.trans hok)
  refine ⟨hcut', ?_⟩
  have hlt := (h.line_lt e).mp hmem
  obtain ⟨x, hx, hline⟩ := h.line (Array.getElem?_eq_getElem hlt)
  unfold Mesh.cutEdge at hok
  simp only [bind_eq_ok_iff, pure_eq_ok_iff] at hok
  obtain ⟨fans, _, cut, hsplitEdge, rfl⟩ := hok
  have hcorners : fans.triangles = m.triangles := h.triangles_eq hcut'.separated
  have hstay : state.2.triangles = m.triangles :=
    hcut.drawn.triangles.trans (h.triangles_eq hcut.separated)
  have hframe : ({ state.2 with triangles := fans.triangles } : Mesh α) = state.2 := by
    rw [hcorners, ← hstay]
  rw [hframe] at hsplitEdge
  have hdraw :=
    splitEdge_unmoved hcut.drawn h.coherent hx (h.triangles_eq hcut.separated) hsplitEdge
  obtain rfl := h.eq_length_of_split hsplit
  show cut = _
  rw [hdraw, hdrawn, List.length_append, List.length_singleton, List.take_add_one,
    Array.getElem?_toList, Array.getElem?_eq_getElem hlt, Option.toList_some, drawLines_append,
    hline]

/-- cutting a severed mesh draws its lines again -/
theorem cutEdges_eq {state : Separation × Mesh α}
    (hok : m.cutEdges m.clearTopology = .ok state) :
    Separated m state.1 ∧ state.2 = m.drawn := by
  obtain ⟨hcut, hdrawn⟩ := foldlM_record (P := fun pre state =>
    Cutting m m.clearTopology pre state ∧
      state.2 = m.clearTopology.drawLines (m.lines.toList.take pre.length))
    (fun _ _ _ _ _ hsplit ⟨hcut, hdrawn⟩ hstep => h.cutEdge_eq hsplit hcut hdrawn hstep)
    ⟨cutting_start h.coherent.proper rfl (tabled_of_nil rfl rfl rfl) rfl rfl rfl, rfl⟩ hok
  refine ⟨hcut.separated, ?_⟩
  rw [hdrawn, h.featureEdges_eq, List.length_range, ← Array.length_toList, List.take_length]
  rfl

omit h in
/-- every vertex copied from itself -/
theorem copiedVertices_range (m : Mesh α) :
    m.copiedVertices (List.range m.vertices.size).toArray
      = .ok (m.vertices.map fun v => { v with normal := .zero }) := by
  have hys : ((List.range m.vertices.size).mapM fun v => do
      let vertex ← fetch m.vertices v
      return ({ vertex with normal := .zero } : Vertex α))
      = .ok (m.vertices.toList.map fun v => { v with normal := .zero }) := by
    refine mapM_eq_ok_iff.mpr (List.forall₂_iff_get.mpr ⟨by simp, fun i hi _ => ?_⟩)
    rw [List.length_range] at hi
    simp only [List.get_eq_getElem, List.getElem_range, fetch_of_lt hi, List.getElem_map,
      Array.getElem_toList]
    rfl
  unfold copiedVertices
  rw [hys]
  simp only [bind, Except.bind, pure, Except.pure, Except.ok.injEq]
  refine Array.toList_inj.mp ?_
  rw [Array.toList_map]

omit h in
/-- a drawing has the vertices of its mesh, without normals -/
theorem withGiven_drawn (m : Mesh α) :
    m.drawn.withGiven (m.vertices.map fun v => { v with normal := .zero }) m.drawn.triangles
      = m.drawn := by
  have e := drawLines_withGiven m.lines.toList m.clearTopology
    (m.vertices.map fun v => { v with normal := .zero }) m.triangles
  have hdrawn : m.drawn = (m.clearTopology.drawLines m.lines.toList).withGiven
      (m.vertices.map fun v => { v with normal := .zero }) m.triangles := e
  rw [hdrawn]
  rfl

/-- cutting a severed mesh completes its drawing -/
theorem cutAlongFeatures_eq (hcomplete : m.drawn.complete = .ok m) :
    m.cutAlongFeatures = .ok ⟨m, (List.range m.vertices.size).toArray, 0⟩ := by
  obtain ⟨copied, hcopy, _, hgiven⟩ := h.coherent.copy
  have hclear : copied.clearTopology = m.clearTopology := by
    have e : (copied.vertices.map fun v => ({ v with normal := .zero } : Vertex α))
        = m.vertices.map fun v => { v with normal := .zero } := (congrArg Mesh.vertices hgiven :)
    unfold clearTopology
    rw [e, triangles_of_given hgiven, singularities_of_given hgiven]
  obtain ⟨⟨fans, split⟩, hsplit, _⟩ : ∃ state, m.cutEdges m.clearTopology = .ok state ∧ _ :=
    cutEdges_spec h.coherent.toSound rfl (tabled_of_nil rfl rfl rfl) rfl rfl rfl
  obtain ⟨hsep, hdrawn⟩ := h.cutEdges_eq hsplit
  have horigin := h.origin_eq hsep
  refine cutAlongFeatures_eq_ok_iff.mpr ⟨copied, fans, split, _, hcopy, by rw [hclear, hsplit],
    by rw [horigin]; exact copiedVertices_range m, ?_, horigin.symm, ?_⟩
  · change split = m.drawn at hdrawn
    rw [hdrawn, withGiven_drawn]
    exact hcomplete
  · rw [less_of_le (Nat.le_refl _), Nat.sub_self]

end Severed

/-! ## the second run of the pipeline -/

section
variable [Scalar α] [Extended α] [Trig α] {m : Mesh α} {c : FeatureCut α} {options : Options α}
  {r : CutResult α}

/-- a run depends on the mesh only through its cut -/
theorem cutStages_of_cut {origin : Array VertexId} {k : Nat}
    (hcut : m.cutAlongFeatures = .ok c) (hagain : c.mesh.cutAlongFeatures = .ok ⟨c.mesh, origin, k⟩)
    (h : (m.cutStages options).result = .ok r) :
    (c.mesh.cutStages options).result = .ok { r with origin } := by
  unfold cutStages at h ⊢
  simp only [Logged.result_bind, Logged.result_lift, Logged.result_emit, Logged.result_of_warning,
    bind_eq_ok_iff] at h ⊢
  obtain ⟨c', hcut', _, hn, distances, hd, far, hfar, p, hp, _, hemit, f, hf, q, hq, _, hemit', g,
    hg, k, hk, _, hemit'', frames, hframes, h⟩ := h
  obtain rfl := Except.ok.inj (hcut.symm.trans hcut')
  obtain rfl := Except.ok.inj h
  exact ⟨_, hagain, (), hn, distances, hd, far, hfar, p, hp, (), hemit, f, hf, q, hq, (), hemit', g,
    hg, k, hk, (), hemit'', frames, hframes, rfl⟩

omit [Scalar α] [Extended α] [Trig α] in
/-- the cut of a mesh with something to anchor a cut graph has it as well -/
theorem Cut.constrained {s : Separation} (h : Cut m c s) (coh : m.Coherent) (hm : m.Constrained) :
    c.mesh.Constrained := by
  refine ⟨?_, hm.2.imp ?_ ?_⟩
  · rw [h.triangles, h.separated.size]
    exact hm.1
  · intro ⟨e, he⟩
    have hfeature := (coh.feature e).mp he
    obtain ⟨t, ht⟩ := coh.exists_incident hfeature.lt_size
    obtain ⟨e', hover, _⟩ := h.exists_image coh.toFitted ht
    exact ⟨e', (h.coherent.feature e').mpr ((h.isFeature_iff_of_over coh hover).mpr hfeature)⟩
  · intro ⟨v, hv⟩
    rw [h.singularities]
    exact ⟨v, hv⟩

/-- a second cut of a mesh that the library gives changes nothing, and neither does a second run of
the pipeline with the same options: only the way back to the input is the identity then.  Without
frames there is a first run, for which lengths have to add up lawfully. -/
theorem cutAlongFeatures_idempotent (h : Obtained m) :
    ∃ c, m.cutAlongFeatures = .ok c ∧
      c.mesh.cutAlongFeatures
        = .ok ⟨c.mesh, (List.range c.mesh.vertices.size).toArray, 0⟩ ∧
      ∀ options : Options α,
        (LawfulLengths α → options.frames = false →
          ∃ r, (m.computeCutGraph options).result = .ok r) ∧
        ∀ r, (m.computeCutGraph options).result = .ok r →
          (r.mesh.computeCutGraph options).result
            = .ok { r with origin := (List.range r.mesh.vertices.size).toArray } := by
  have coh := h.coherent
  obtain ⟨c, s, hok, hcut⟩ := h.cut
  have hagain := (hcut.severed coh).cutAlongFeatures_eq (complete_drawn_of_cut coh hok)
  refine ⟨c, hok, hagain, fun options => ⟨fun _ => computeCutGraph_complete coh, fun r hr => ?_⟩⟩
  by_cases hm : m.Constrained
  · rw [computeCutGraph_of_constrained hm] at hr
    obtain ⟨c', f, hstaged⟩ := cutStages_ok hr
    obtain rfl := Except.ok.inj (hok.symm.trans hstaged.cut)
    have hsecond := cutStages_of_cut hok hagain hr
    have hm' := hcut.constrained coh hm
    rw [← hstaged.mesh] at hsecond hm'
    rw [computeCutGraph_of_constrained hm']
    exact hsecond
  · rw [result_of_not_constrained hm] at hr
    obtain rfl := Except.ok.inj hr
    exact result_of_not_constrained hm options

theorem idempotent_threeTriangles : ∃ m, threeTriangles.result = .ok m ∧
    ∃ c, m.cutAlongFeatures = .ok c ∧
      c.mesh.cutAlongFeatures
        = .ok ⟨c.mesh, (List.range c.mesh.vertices.size).toArray, 0⟩ ∧
      ∀ options : Options Float,
        (options.frames = false → ∃ r, (m.computeCutGraph options).result = .ok r) ∧
        ∀ r, (m.computeCutGraph options).result = .ok r →
          (r.mesh.computeCutGraph options).result
            = .ok { r with origin := (List.range r.mesh.vertices.size).toArray } := by
  obtain ⟨m, hm, _⟩ := threeTriangles_ok
  obtain ⟨c, hok, hagain, hruns⟩ := cutAlongFeatures_idempotent (.ofTriangles hm)
  exact ⟨m, hm, c, hok, hagain, fun options => ⟨(hruns options).1 inferInstance, (hruns options).2⟩⟩

end
end Mesh
end DiskCut
