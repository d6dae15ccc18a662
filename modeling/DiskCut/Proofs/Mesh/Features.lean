import DiskCut.Proofs.Mesh.Normals

/-!
# Feature marks

* `markedBy lines x`                         the edge `x` with the mark of the last line on it
* `lineMark lines k`                         the mark that this line gives to the pair `k`
* `markFeatureLines_spec`, `markFeatureLines_stopped`   the edges of lines are flagged one by one, which
                                             stops on the first line that is no edge
* `raysAt m v`                               the feature edges at a vertex, from the set of them
* `Starred m`                                the stored feature edges at vertices are these
* `InSync m`                                 they are recorded once for each end
* `updateFeatureIncidence_total`             so they are after an update
* `updateFeatureIncidence_spec`              which stores the feature edges at vertices

An edge is recorded at both its ends; for an edge from a vertex to itself that is twice at the same
vertex, so the last statement asks for feature edges with different ends.
-/

namespace DiskCut
open Std
namespace Mesh
variable {α : Type} {m m' : Mesh α}

/-! ## flagging edges -/

/-- the mesh with edge `e` flagged as a feature of `curve` -/
def flagged (m : Mesh α) (e : EdgeId) (curve : Option Int) : Mesh α :=
  { m with
    edges := m.edges.modify e ({ · with isFeature := true, curve := curve })
    featureEdges := m.featureEdges.insert e }

theorem edge_flagged (m : Mesh α) (e e' : EdgeId) (curve : Option Int) :
    (m.flagged e curve).edges[e']? = if e = e' then m.edges[e']?.map
      ({ · with isFeature := true, curve := curve }) else m.edges[e']? :=
  Array.getElem?_modify

theorem isFeature_flagged {e e' : EdgeId} {curve : Option Int} (he : e < m.edges.size) :
    (m.flagged e curve).IsFeature e' ↔ e = e' ∨ m.IsFeature e' := by
  unfold IsFeature
  rw [edge_flagged]
  by_cases hee : e = e'
  · subst hee
    rw [if_pos rfl, Array.getElem?_eq_getElem he]
    refine ⟨?_, ?_⟩
    · intro _
      exact .inl rfl
    · intro _
      exact ⟨_, rfl, rfl⟩
  · rw [if_neg hee]
    refine ⟨?_, ?_⟩
    · exact .inr
    · intro h
      exact h.resolve_left hee

/-- the pair of a line is known to the edge table -/
def Covers (m : Mesh α) (line : Line) : Prop :=
  ∃ e, m.edgeIndex[edgeKey line.ends.1 line.ends.2]? = some e

theorem markLine_eq (h : m.Tabled) {line : Line} {e : EdgeId}
    (he : m.edgeIndex[edgeKey line.ends.1 line.ends.2]? = some e) :
    m.markLine line = .ok (m.flagged e line.curve) := by
  unfold markLine findEdge?
  simp only [he, alter_of_lt (h.lt_size he), leaving, mapError_ok, bind, Except.bind, pure,
    Except.pure]
  rfl

theorem feature_flagged (h : ∀ e, e ∈ m.featureEdges ↔ m.IsFeature e) {e : EdgeId}
    (he : e < m.edges.size) (curve : Option Int) (e' : EdgeId) :
    e' ∈ (m.flagged e curve).featureEdges ↔ (m.flagged e curve).IsFeature e' := by
  rw [isFeature_flagged he, ← h e']
  show e' ∈ m.featureEdges.insert e ↔ _
  rw [ExtTreeSet.mem_insert, Nat.compare_eq_eq]

/-! ## the mark of the last line -/

/-- the lines on the pair `k`, in their order -/
def linesOn (lines : List Line) (k : VertexId × VertexId) : List Line :=
  lines.filter fun line => edgeKey line.ends.1 line.ends.2 = k

/-- an edge after the lines on it were marked one by one; the last of them gives the curve -/
def markedBy (lines : List Line) (x : Edge α) : Edge α :=
  match (linesOn lines x.ends).getLast? with
  | none => x
  | some line => { x with isFeature := true, curve := line.curve }

/-- flag and curve tag that the lines give to the pair `k` -/
def lineMark (lines : List Line) (k : VertexId × VertexId) : Bool × Option Int :=
  ((linesOn lines k).getLast?.isSome, (linesOn lines k).getLast?.bind Line.curve)

section
variable {lines : List Line} {k : VertexId × VertexId} {x : Edge α}

theorem ends_markedBy (lines : List Line) (x : Edge α) : (markedBy lines x).ends = x.ends := by
  unfold markedBy
  split <;> rfl

/-- a plain edge gets the mark of its pair -/
theorem lineMark_markedBy (plain : x.isFeature = false) (none : x.curve = none) :
    ((markedBy lines x).isFeature, (markedBy lines x).curve) = lineMark lines x.ends := by
  unfold markedBy lineMark
  cases (linesOn lines x.ends).getLast? with
  | none => exact Prod.ext plain none
  | some line => rfl

/-- a pair is flagged when a line is on it -/
theorem lineMark_flag :
    (lineMark lines k).1 = true ↔ ∃ line ∈ lines, edgeKey line.ends.1 line.ends.2 = k := by
  show (linesOn lines k).getLast?.isSome = true ↔ _
  rw [List.getLast?_isSome, linesOn, Ne, List.filter_eq_nil_iff]
  simp only [decide_eq_true_iff, not_forall, not_not, exists_prop]

theorem linesOn_concat_of_eq {line : Line} (h : edgeKey line.ends.1 line.ends.2 = k) :
    linesOn (lines ++ [line]) k = linesOn lines k ++ [line] := by
  simp [linesOn, h]

theorem linesOn_concat_of_ne {line : Line} (h : edgeKey line.ends.1 line.ends.2 ≠ k) :
    linesOn (lines ++ [line]) k = linesOn lines k := by
  simp [linesOn, h]

theorem markedBy_concat_of_eq {line : Line} (h : edgeKey line.ends.1 line.ends.2 = x.ends) :
    markedBy (lines ++ [line]) x
      = { markedBy lines x with isFeature := true, curve := line.curve } := by
  have hlast : (linesOn (lines ++ [line]) x.ends).getLast? = some line := by
    rw [linesOn_concat_of_eq h, List.getLast?_concat]
  simp only [markedBy, hlast]
  cases (linesOn lines x.ends).getLast? <;> rfl

theorem markedBy_concat_of_ne {line : Line} (h : edgeKey line.ends.1 line.ends.2 ≠ x.ends) :
    markedBy (lines ++ [line]) x = markedBy lines x := by
  unfold markedBy
  rw [linesOn_concat_of_ne h]

/-- a line more gives its own pair a new mark, and no other -/
theorem lineMark_concat_of_eq {line : Line} (h : edgeKey line.ends.1 line.ends.2 = k) :
    lineMark (lines ++ [line]) k = (true, line.curve) := by
  rw [lineMark, linesOn_concat_of_eq h, List.getLast?_concat]
  rfl

theorem lineMark_concat_of_ne {line : Line} (h : edgeKey line.ends.1 line.ends.2 ≠ k) :
    lineMark (lines ++ [line]) k = lineMark lines k := by
  rw [lineMark, linesOn_concat_of_ne h, lineMark]

end

/-! ## marking all lines -/

section
variable [Scalar α]

theorem outline_flagged (m : Mesh α) (e : EdgeId) (curve : Option Int) :
    (m.flagged e curve).outline = m.outline := by
  unfold outline flagged
  simp only [Mesh.mk.injEq, true_and, and_true]
  exact map_modify_of_eq m.edges e fun _ => rfl

/-- `s` is `m` with the edges of the lines `done` flagged -/
structure Marking (m : Mesh α) (done : List Line) (s : Mesh α) : Prop where
  tabled : s.Tabled
  feature : ∀ e, e ∈ s.featureEdges ↔ s.IsFeature e
  outline : s.outline = m.outline
  covers : ∀ line ∈ done, m.Covers line
  edges : ∀ {e : EdgeId} {x : Edge α}, m.edges[e]? = some x → s.edges[e]? = some (markedBy done x)

theorem marking_start (tab : m.Tabled) (feature : ∀ e, e ∈ m.featureEdges ↔ m.IsFeature e) :
    Marking m [] m := ⟨tab, feature, rfl, by simp, id⟩

/-- the edge of one more line is flagged, unless the line is no edge -/
theorem Marking.markLine {done : List Line} {s : Mesh α} (h : Marking m done s) (line : Line) :
    (∃ next, s.markLine line = .ok next ∧ Marking m (done ++ [line]) next) ∨
    (¬ m.Covers line ∧
      s.markLine line = .error ⟨s, .mesh (.featureEdgeNotFound line.ends.1 line.ends.2)⟩) := by
  have hindex := edgeIndex_of_outline h.outline
  cases he : s.edgeIndex[edgeKey line.ends.1 line.ends.2]? with
  | none =>
    refine .inr ⟨fun ⟨e, hcov⟩ => ?_, ?_⟩
    · rw [← hindex, he] at hcov
      cases hcov
    · unfold Mesh.markLine findEdge?
      simp only [he]
  | some d =>
    have hlt := h.tabled.lt_size he
    have hout := outline_flagged s d line.curve
    refine .inl ⟨_, markLine_eq h.tabled he, {
      tabled := h.tabled.of_outline hout
      feature := feature_flagged h.feature hlt _
      outline := hout.trans h.outline
      covers := ?_
      edges := ?_ }⟩
    · intro line' hline
      rcases List.mem_append.mp hline with hline | hline
      · exact h.covers line' hline
      · rw [List.mem_singleton.mp hline]
        exact ⟨d, hindex ▸ he⟩
    · intro e x hx
      have hy := h.edges hx
      rw [edge_flagged, hy]
      by_cases hde : d = e
      · have hends := h.tabled.ends_eq hy (hde ▸ he)
        rw [ends_markedBy] at hends
        rw [if_pos hde, markedBy_concat_of_eq hends.symm]
        rfl
      · have hne : edgeKey line.ends.1 line.ends.2 ≠ x.ends := by
          intro heq
          have hindexed := h.tabled.index_of_edge hy
          rw [ends_markedBy, ← heq, he] at hindexed
          exact hde (Option.some.inj hindexed)
        rw [if_neg hde, markedBy_concat_of_ne hne]

theorem Marking.of_markLine {done : List Line} {s next : Mesh α} (h : Marking m done s)
    {line : Line} (hstep : s.markLine line = .ok next) : Marking m (done ++ [line]) next := by
  rcases h.markLine line with ⟨s', hs', hnext⟩ | ⟨_, herr⟩
  · rw [hs'] at hstep
    exact Except.ok.inj hstep ▸ hnext
  · rw [herr] at hstep
    cases hstep

/-- the edges of all lines are flagged, and every line is found to be an edge -/
theorem markFeatureLines_spec (tab : m.Tabled) (feature : ∀ e, e ∈ m.featureEdges ↔ m.IsFeature e)
    (hok : m.markFeatureLines = .ok m') : Marking m m.lines.toList m' :=
  foldlM_record (fun _ _ _ _ _ _ hs hstep => hs.of_markLine hstep) (marking_start tab feature) hok

/-- it stops on the first line that is no edge -/
theorem markFeatureLines_stopped (tab : m.Tabled)
    (feature : ∀ e, e ∈ m.featureEdges ↔ m.IsFeature e) {stopped : Interrupted α}
    (hstop : m.markFeatureLines = .error stopped) :
    ∃ pre line post, m.lines.toList = pre ++ line :: post ∧ (∀ line' ∈ pre, m.Covers line') ∧
      ¬ m.Covers line ∧
      stopped.fault = .mesh (.featureEdgeNotFound line.ends.1 line.ends.2) := by
  obtain ⟨pre, line, post, s, hsplit, hs, hstep⟩ := foldlM_stopped (P := Marking m)
    (fun _ _ _ _ _ _ hs hstep => hs.of_markLine hstep) (marking_start tab feature) hstop
  rcases hs.markLine line with ⟨s', hs', _⟩ | ⟨hno, herr⟩
  · rw [hs'] at hstep
    cases hstep
  · rw [herr] at hstep
    obtain rfl := Except.error.inj hstep
    exact ⟨pre, line, post, hsplit, hs.covers, hno, rfl⟩

end

/-! ## feature edges at vertices -/

/-- edge `e` has `v` as an end -/
def touches (m : Mesh α) (v : VertexId) (e : EdgeId) : Bool := m.edges[e]?.any (·.contains v)

/-- the feature edges at a vertex, in increasing order -/
def raysAt (m : Mesh α) (v : VertexId) : List EdgeId := m.featureEdges.toList.filter (m.touches v)

/-- what is stored at a vertex with the feature edges `rays` -/
def starOf (rays : List EdgeId) : Option (List EdgeId) := if rays = [] then none else some rays

/-- the feature edges stored at vertices are those of the set of feature edges -/
def Starred (m : Mesh α) : Prop := ∀ v, m.featureStars[v]? = starOf (m.raysAt v)

theorem touches_iff {v : VertexId} {e : EdgeId} : m.touches v e = true ↔ m.IsEnd e v := by
  unfold touches IsEnd Edge.contains
  cases m.edges[e]? with
  | none => simp
  | some x => simp

theorem mem_raysAt {v : VertexId} {e : EdgeId} :
    e ∈ m.raysAt v ↔ e ∈ m.featureEdges ∧ m.IsEnd e v := by
  rw [raysAt, List.mem_filter, touches_iff, ExtTreeSet.mem_toList]

theorem eq_of_starOf {rays es : List EdgeId} (h : starOf rays = some es) : es = rays := by
  unfold starOf at h
  split at h
  · cases h
  · exact (Option.some.inj h).symm

theorem starOf_append (rays : List EdgeId) (e : EdgeId) :
    starOf (rays ++ [e]) = some ((starOf rays).getD [] ++ [e]) := by
  unfold starOf
  rw [if_neg (by simp)]
  split
  · rename_i h
    rw [h]
    rfl
  · rfl

theorem getElem?_addRay (e : EdgeId) (stars : ExtTreeMap VertexId (List EdgeId)) (v w : VertexId) :
    (addRay e stars v)[w]? = if v = w then some (stars[w]?.getD [] ++ [e]) else stars[w]? := by
  unfold addRay
  rw [ExtTreeMap.getElem?_insert]
  simp only [Nat.compare_eq_eq]
  split
  · rename_i h
    rw [h, ExtTreeMap.getD_eq_getD_getElem?]
  · rfl

/-- edge `e` is recorded once for each of the ends `vs` -/
theorem getElem?_addRays {e : EdgeId} {stars : ExtTreeMap VertexId (List EdgeId)}
    {rays : VertexId → List EdgeId} (h : ∀ v, stars[v]? = starOf (rays v)) (vs : List VertexId) :
    ∀ v, (vs.foldl (addRay e) stars)[v]?
      = starOf (rays v ++ List.replicate (vs.count v) e) := by
  induction vs generalizing stars rays with
  | nil =>
    intro v
    rw [List.count_nil, List.replicate_zero, List.append_nil]
    exact h v
  | cons w vs ih =>
    have hstep : ∀ v, (addRay e stars w)[v]?
        = starOf (rays v ++ List.replicate ([w].count v) e) := by
      intro v
      rw [getElem?_addRay, h v]
      by_cases hw : w = v
      · subst hw
        rw [if_pos rfl, List.count_singleton_self, List.replicate_one, starOf_append]
      · rw [if_neg hw, List.count_eq_zero_of_not_mem (by simpa using Ne.symm hw),
          List.replicate_zero, List.append_nil]
    intro v
    rw [List.foldl_cons, ih hstep v, List.append_assoc, ← List.replicate_add, ← List.count_append]
    rfl

/-- edge `e` as often as `v` is an end of it: once, or twice when it joins `v` to itself -/
def endsAt (m : Mesh α) (v : VertexId) (e : EdgeId) : List EdgeId :=
  m.edges[e]?.elim [] fun x => List.replicate ([x.ends.1, x.ends.2].count v) e

/-- the feature edges stored at vertices are in sync with the set of feature edges: each is recorded
at its ends, in increasing order -/
def InSync (m : Mesh α) : Prop :=
  ∀ v, m.featureStars[v]? = starOf (m.featureEdges.toList.flatMap (m.endsAt v))

theorem mem_of_endsAt {v : VertexId} {e d : EdgeId} (h : d ∈ m.endsAt v e) : d = e := by
  unfold endsAt at h
  cases hx : m.edges[e]? with
  | none =>
    rw [hx] at h
    cases h
  | some x =>
    rw [hx] at h
    exact List.eq_of_mem_replicate h

/-- an edge with two ends is recorded once at each -/
theorem endsAt_of_ne {v : VertexId} {e : EdgeId}
    (h : ∃ x, m.edges[e]? = some x ∧ x.ends.1 ≠ x.ends.2) :
    m.endsAt v e = if m.touches v e then [e] else [] := by
  obtain ⟨x, hx, hne⟩ := h
  have hends : m.endsAt v e = List.replicate ([x.ends.1, x.ends.2].count v) e := by
    unfold endsAt
    rw [hx]
    rfl
  have htouch : m.touches v e = (x.ends.1 == v || x.ends.2 == v) := by
    simp only [touches, hx, Option.any_some, Edge.contains]
  rw [hends, htouch]
  by_cases h₂ : x.ends.2 = v
  · subst h₂
    simp [hne]
  · by_cases h₁ : x.ends.1 = v
    · subst h₁
      simp [h₂]
    · simp [h₁, h₂]

/-- without feature edges from a vertex to itself, each is stored once at each end -/
theorem InSync.starred (h : m.InSync)
    (proper : ∀ e ∈ m.featureEdges, ∃ x, m.edges[e]? = some x ∧ x.ends.1 ≠ x.ends.2) :
    m.Starred := by
  intro v
  have once : ∀ es : List EdgeId, (∀ e ∈ es, e ∈ m.featureEdges) →
      es.flatMap (m.endsAt v) = es.filter (m.touches v) := by
    intro es hes
    induction es with
    | nil => rfl
    | cons e es ih =>
      obtain ⟨he, hes⟩ := List.forall_mem_cons.mp hes
      rw [List.flatMap_cons, List.filter_cons, endsAt_of_ne (proper e he), ih hes]
      cases m.touches v e <;> rfl
  rw [h v, once _ fun e he => ExtTreeSet.mem_toList.mp he]
  rfl

/-- an update of the feature incidence completes when feature edges are edges -/
theorem updateFeatureIncidence_total (hlt : ∀ e ∈ m.featureEdges, e < m.edges.size) :
    ∃ stars, m.updateFeatureIncidence = .ok { m with featureStars := stars } ∧
      InSync { m with featureStars := stars } := by
  have keep : ∀ pre e post stars, m.featureEdges.toList = pre ++ e :: post →
      (∀ v, stars[v]? = starOf (pre.flatMap (m.endsAt v))) →
      ∃ next, m.addFeatureRays stars e = .ok next ∧
        ∀ v, next[v]? = starOf ((pre ++ [e]).flatMap (m.endsAt v)) := by
    intro pre e post stars hsplit hs
    have he : e ∈ m.featureEdges := by
      rw [← ExtTreeSet.mem_toList, hsplit]
      simp
    have hx := Array.getElem?_eq_getElem (hlt e he)
    unfold addFeatureRays edge
    rw [fetch_eq_ok_iff.mpr hx]
    refine ⟨_, rfl, fun v => ?_⟩
    rw [List.flatMap_append, List.flatMap_singleton, endsAt, hx]
    exact getElem?_addRays hs _ v
  obtain ⟨stars, hok, hstars⟩ := foldlM_total
    (P := fun done stars => ∀ v, stars[v]? = starOf (done.flatMap (m.endsAt v)))
    (f := m.addFeatureRays) (s := (∅ : ExtTreeMap VertexId (List EdgeId))) keep (fun _ => by
      rw [ExtTreeMap.getElem?_empty]
      rfl)
  refine ⟨stars, ?_, hstars⟩
  unfold updateFeatureIncidence
  rw [hok]
  rfl

/-- the feature edges that are read at a vertex -/
theorem Starred.featureEdgesAt (h : m.Starred) (v : VertexId) :
    m.featureEdgesAt v = m.raysAt v := by
  unfold Mesh.featureEdgesAt
  rw [ExtTreeMap.getD_eq_getD_getElem?, h v]
  unfold starOf
  split
  · rename_i hnil
    rw [hnil]
    rfl
  · rfl

theorem Starred.mem_featureVertices (h : m.Starred) {v : VertexId} :
    v ∈ m.featureVertices ↔ ∃ e, e ∈ m.featureEdges ∧ m.IsEnd e v := by
  unfold featureVertices
  rw [ExtTreeMap.mem_keys, ExtTreeMap.mem_iff_isSome_getElem?, h v]
  unfold starOf
  refine ⟨?_, ?_⟩
  · intro hsome
    split at hsome
    · cases hsome
    · rename_i hne
      obtain ⟨e, he⟩ := List.exists_mem_of_ne_nil _ hne
      exact ⟨e, mem_raysAt.mp he⟩
  · intro ⟨e, he⟩
    rw [if_neg (List.ne_nil_of_mem (mem_raysAt.mpr he))]
    rfl

/-- after an update each feature edge is stored at its two ends -/
theorem updateFeatureIncidence_spec
    (proper : ∀ e ∈ m.featureEdges, ∃ x, m.edges[e]? = some x ∧ x.ends.1 ≠ x.ends.2) :
    ∃ stars, m.updateFeatureIncidence = .ok { m with featureStars := stars } ∧
      Starred { m with featureStars := stars } := by
  have hlt : ∀ e ∈ m.featureEdges, e < m.edges.size := by
    intro e he
    obtain ⟨x, hx, _⟩ := proper e he
    exact (Array.getElem?_eq_some_iff.mp hx).1
  obtain ⟨stars, hok, hsync⟩ := updateFeatureIncidence_total hlt
  exact ⟨stars, hok, hsync.starred proper⟩

end Mesh
end DiskCut
