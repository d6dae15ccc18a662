import DiskCut.Proofs.FeatureCut.Again
import DiskCut.Proofs.FeatureCut.Chain

/-!
# Frames on a cut mesh

On a severed mesh the feature edges at a vertex are those of one fan, so there are one or two.

* `Severed.featureEdgesAt_cases`   the feature edges at a feature vertex
* `Severed.featureEdgesAt_of_inner`   a feature edge with two triangles is the only one at its ends
* `Severed.bundleAt?_of_two`, `bundleAt?_of_one`   what a frame is computed from, and when there is
                                   nothing
* `Severed.framesIfWanted_cases`   frames are found, or a vertex has one feature edge
* `computeCutGraph_total`          so the pipeline completes, or stops at such a vertex

A frame whose directions degenerate is the world frame, so no coordinates are in the way of a frame.  A
loop that reaches its bound is a fault, and none does: that is part of `flood_spec`,
`spanningForest_ok` and `trimCutGraph_spec`, and for the search of `EdgeGraph.distancesFrom_nearest`,
which is where the pipeline needs lengths to add up lawfully.
-/

namespace DiskCut
open Std
namespace Mesh
variable {α : Type}

/-! ## the feature edges at a vertex -/

section
variable {m : Mesh α} {e e' : EdgeId} {t u : TriangleId} {v : VertexId}

/-- at most two spokes at a vertex are on feature edges -/
theorem OneFan.rays (h : m.OneFan) (fit : m.Fitted) (v : VertexId) :
    ∃ p q : TriangleId × EdgeId, ∀ t e, m.IsFeature e → m.Spoke v t e →
      (t, e) = p ∨ (t, e) = q := by
  by_cases hray : ∃ t, m.HasRay v t
  · obtain ⟨t, ht⟩ := hray
    obtain ⟨p, q, hends⟩ := fit.rays_of_fan (fit.isCorner_of_hasRay ht)
    exact ⟨p, q, fun u e he hu => hends u e (h t u v ht ⟨e, he, hu⟩) he hu⟩
  · exact ⟨(0, 0), (0, 0), fun t e he ht => absurd ⟨t, e, he, ht⟩ hray⟩

namespace Severed
variable (h : m.Severed)
include h

theorem mem_featureEdgesAt : e ∈ m.featureEdgesAt v ↔ m.IsFeature e ∧ m.IsEnd e v := by
  rw [h.coherent.starred.featureEdgesAt, mem_raysAt, h.coherent.feature]

theorem nodup_featureEdgesAt : (m.featureEdgesAt v).Nodup := by
  rw [h.coherent.starred.featureEdgesAt, raysAt]
  have hlt : m.featureEdges.toList.Pairwise (· < ·) :=
    m.featureEdges.ordered_toList.imp Nat.compare_eq_lt.mp
  exact (hlt.imp Nat.ne_of_lt).filter _

theorem length_featureEdgesAt_le : (m.featureEdgesAt v).length ≤ 2 := by
  obtain ⟨p, q, hends⟩ := h.oneFan.rays h.coherent.toFitted v
  have hsub : m.featureEdgesAt v ⊆ [p.2, q.2] := by
    intro e he
    obtain ⟨hfeature, hend⟩ := h.mem_featureEdgesAt.mp he
    obtain ⟨t, ht⟩ := h.coherent.exists_incident hend.lt_size
    rcases hends t e hfeature ⟨hend, ht⟩ with rfl | rfl
    · simp
    · simp
  exact (h.nodup_featureEdgesAt.subperm hsub).length_le

/-- a feature vertex has one feature edge or two -/
theorem featureEdgesAt_cases (hv : v ∈ m.featureVertices) :
    (∃ e, m.featureEdgesAt v = [e]) ∨ ∃ e₁ e₂, m.featureEdgesAt v = [e₁, e₂] := by
  obtain ⟨e, he⟩ := h.coherent.starred.mem_featureVertices.mp hv
  have hmem : e ∈ m.featureEdgesAt v := by
    rw [h.coherent.starred.featureEdgesAt]
    exact mem_raysAt.mpr he
  have hlen := h.length_featureEdgesAt_le (v := v)
  match m.featureEdgesAt v, hmem, hlen with
  | [e], _, _ => exact .inl ⟨e, rfl⟩
  | [e₁, e₂], _, _ => exact .inr ⟨e₁, e₂, rfl⟩

/-- the two triangles of a feature edge take both places for feature edges at its ends -/
theorem eq_of_shared (he : m.IsFeature e) (hend : m.IsEnd e v) (ht : m.Incident e t)
    (hu : m.Incident e u) (hne : t ≠ u) (he' : m.IsFeature e') (hend' : m.IsEnd e' v) : e' = e := by
  obtain ⟨p, q, hends⟩ := h.oneFan.rays h.coherent.toFitted v
  obtain ⟨w, hw⟩ := h.coherent.exists_incident hend'.lt_size
  have h₁ := hends t e he ⟨hend, ht⟩
  have h₂ := hends u e he ⟨hend, hu⟩
  have h₃ := hends w e' he' ⟨hend', hw⟩
  grind

theorem features_of_two {e₁ e₂ : EdgeId} (hes : m.featureEdgesAt v = [e₁, e₂]) :
    (m.IsFeature e₁ ∧ m.IsEnd e₁ v) ∧ (m.IsFeature e₂ ∧ m.IsEnd e₂ v) ∧ e₁ ≠ e₂ := by
  have hnodup := h.nodup_featureEdgesAt (v := v)
  rw [hes] at hnodup
  refine ⟨h.mem_featureEdgesAt.mp ?_, h.mem_featureEdgesAt.mp ?_, ?_⟩
  · simp [hes]
  · simp [hes]
  · simpa using hnodup

/-- so a feature edge with two triangles is alone at its ends -/
theorem featureEdgesAt_of_inner (he : m.IsFeature e) (hinner : m.IsInner e) (hend : m.IsEnd e v) :
    m.featureEdgesAt v = [e] := by
  obtain ⟨t, u, htu⟩ := hinner
  have hne : t ≠ u := by
    have hsorted := h.coherent.sorted htu
    simp only [List.pairwise_cons, List.mem_singleton, forall_eq] at hsorted
    exact Nat.ne_of_lt hsorted.1
  have hv : v ∈ m.featureVertices :=
    h.coherent.starred.mem_featureVertices.mpr ⟨e, (h.coherent.feature e).mpr he, hend⟩
  have alone : ∀ e' ∈ m.featureEdgesAt v, e' = e := by
    intro e' hmem
    obtain ⟨he', hend'⟩ := h.mem_featureEdgesAt.mp hmem
    exact h.eq_of_shared he hend ⟨_, htu, List.mem_cons_self⟩ ⟨_, htu, by simp⟩ hne he' hend'
  rcases h.featureEdgesAt_cases hv with ⟨e', hes⟩ | ⟨e₁, e₂, hes⟩
  · rw [hes, alone e' (by simp [hes])]
  · obtain ⟨_, _, hapart⟩ := h.features_of_two hes
    exact absurd ((alone e₁ (by simp [hes])).trans (alone e₂ (by simp [hes])).symm) hapart

/-- and one of two feature edges at a vertex has one triangle -/
theorem isOpen_of_two {e₁ e₂ : EdgeId} (hes : m.featureEdgesAt v = [e₁, e₂]) : m.IsOpen e₁ := by
  obtain ⟨⟨he₁, hend₁⟩, _, _⟩ := h.features_of_two hes
  refine (h.coherent.isOpen_or_isInner he₁.lt_size).resolve_right fun hinner => ?_
  have hone := h.featureEdgesAt_of_inner he₁ hinner hend₁
  rw [hes] at hone
  cases hone

end Severed
end

/-! ## the directions at a vertex -/

section
variable {m : Mesh α} {e : EdgeId} {t : TriangleId} {v : VertexId} {x : Edge α}

theorem isEnd_opposite (hx : m.edges[e]? = some x) (v : VertexId) : m.IsEnd e (x.opposite v) := by
  refine ⟨x, hx, ?_⟩
  unfold Edge.opposite
  split
  · exact .inr rfl
  · exact .inl rfl

/-- an edge with an end at `v` is found, if there is one apart from `e` -/
theorem referenceEdge?_ok {es : List EdgeId} (hlt : ∀ f ∈ es, f < m.edges.size)
    (hex : ∃ f ∈ es, f ≠ e ∧ m.IsEnd f v) :
    ∃ (f : EdgeId) (x : Edge α), m.referenceEdge? v e es = .ok (some x) ∧
      m.edges[f]? = some x := by
  induction es with
  | nil =>
    obtain ⟨f, hf, _⟩ := hex
    cases hf
  | cons f rest ih =>
    have hrest := fun hex => ih (fun g hg => hlt g (List.mem_cons_of_mem _ hg)) hex
    obtain ⟨x, hx⟩ : ∃ x, m.edges[f]? = some x :=
      ⟨_, Array.getElem?_eq_getElem (hlt f List.mem_cons_self)⟩
    unfold referenceEdge? edge
    by_cases hfe : f = e
    · rw [if_pos hfe]
      obtain ⟨g, hg, hne, hend⟩ := hex
      rcases List.mem_cons.mp hg with rfl | hg
      · exact absurd hfe hne
      · exact hrest ⟨g, hg, hne, hend⟩
    · rw [if_neg hfe, fetch_eq_ok_iff.mpr hx, ok_bind]
      by_cases hcontains : x.contains v = true
      · rw [if_pos hcontains]
        exact ⟨f, x, rfl, hx⟩
      · rw [if_neg hcontains]
        obtain ⟨g, hg, hne, hend⟩ := hex
        rcases List.mem_cons.mp hg with rfl | hg
        · obtain ⟨y, hy, hend⟩ := hend
          rw [hx] at hy
          obtain rfl := Option.some.inj hy
          exact absurd (by simpa [Edge.contains] using hend) hcontains
        · exact hrest ⟨g, hg, hne, hend⟩

variable [Scalar α]

theorem directionTo?_ok (p : Vec3 α) (hv : v < m.vertices.size) :
    ∃ d, m.directionTo? p v = .ok d := by
  unfold directionTo?
  rw [position_of_lt hv]
  exact ⟨_, rfl⟩

/-- the directions between vertices of the mesh are found, or they degenerate -/
theorem bundle?_ok {first second reference : VertexId} (hv : v < m.vertices.size)
    (hfirst : first < m.vertices.size) (hsecond : second < m.vertices.size)
    (hreference : reference < m.vertices.size) :
    ∃ b, m.bundle? v first second reference = .ok b := by
  unfold bundle?
  rw [position_of_lt hv, ok_bind, fetch_of_lt hv, ok_bind]
  obtain ⟨d₁, hd₁⟩ := directionTo?_ok m.vertices[v].position hfirst
  obtain ⟨d₂, hd₂⟩ := directionTo?_ok m.vertices[v].position hsecond
  obtain ⟨d, hd⟩ := directionTo?_ok m.vertices[v].position hreference
  rw [hd₁, hd₂, hd]
  cases d₁ with
  | none => exact ⟨none, rfl⟩
  | some d₁ =>
    cases d₂ with
    | none => exact ⟨none, rfl⟩
    | some d₂ =>
      cases d with
      | none => exact ⟨none, rfl⟩
      | some d =>
        simp only [ok_bind]
        split
        · exact ⟨_, rfl⟩
        · exact ⟨none, rfl⟩

theorem bundleAt?_of_one (hes : m.featureEdgesAt v = [e]) :
    m.bundleAt? v = .error (.mesh (.featureValence v 1)) := by
  unfold bundleAt?
  rw [hes]
  rfl

/-- at a vertex with two feature edges there is all that a frame is computed from -/
theorem Severed.bundleAt?_of_two (h : m.Severed) {e₁ e₂ : EdgeId}
    (hes : m.featureEdgesAt v = [e₁, e₂]) : ∃ b, m.bundleAt? v = .ok b := by
  have coh := h.coherent
  obtain ⟨⟨⟨x₁, hx₁, _⟩, hend₁⟩, ⟨⟨x₂, hx₂, _⟩, _⟩, _⟩ := h.features_of_two hes
  obtain ⟨t, ht⟩ := h.isOpen_of_two hes
  have hinc : m.Incident e₁ t := ⟨[t], ht, List.mem_singleton_self t⟩
  obtain ⟨es, hsides, hmem⟩ := coh.sidesOf_ok (coh.lt_of_incident hinc)
  -- the other spoke of the triangle is the reference edge
  obtain ⟨f, hne, ⟨hendf, hincf⟩, _⟩ := coh.exists_other_spoke ⟨hend₁, hinc⟩
  obtain ⟨g, y, hreference, hy⟩ := referenceEdge?_ok (v := v) (e := e₁)
    (fun g hg => coh.lt_size_of_incident ((hmem g).mp hg)) ⟨f, (hmem f).mpr hincf, hne, hendf⟩
  unfold bundleAt? trianglesAt edge
  simp only [hes, fetch_eq_ok_iff.mpr ht, fetch_eq_ok_iff.mpr hx₁, fetch_eq_ok_iff.mpr hx₂, hsides,
    hreference, ok_bind]
  exact bundle?_ok (coh.end_lt hend₁) (coh.end_lt (isEnd_opposite hx₁ v))
    (coh.end_lt (isEnd_opposite hx₂ v)) (coh.end_lt (isEnd_opposite hy v))

end

/-! ## frames -/

section
variable [Scalar α] [Trig α] {m : Mesh α} {v : VertexId}

theorem result_frameAt (m : Mesh α) (v : VertexId) :
    (m.frameAt v).result = (m.bundleAt? v >>= fun b => .ok (v, b.elim .world Bundle.frame)) := by
  unfold frameAt
  rw [Logged.result_bind, Logged.result_lift]
  refine congrArg (m.bundleAt? v >>= ·) (funext fun b => ?_)
  cases b with
  | none => rfl
  | some b => rfl

theorem fst_of_frameAt {x : VertexId × Frame α} (h : (m.frameAt v).result = .ok x) : v = x.1 := by
  rw [result_frameAt] at h
  obtain ⟨_, _, h⟩ := bind_eq_ok_iff.mp h
  exact congrArg Prod.fst (Except.ok.inj h)

/-- the frame at a vertex with two feature edges, or the single feature edge at a vertex -/
theorem Severed.frameAt_cases (h : m.Severed) (hv : v ∈ m.featureVertices) :
    ((m.featureEdgesAt v).length = 2 ∧ ∃ frame, (m.frameAt v).result = .ok (v, frame)) ∨
      (∃ e, m.featureEdgesAt v = [e]) ∧
        (m.frameAt v).result = .error (.mesh (.featureValence v 1)) := by
  rw [result_frameAt]
  rcases h.featureEdgesAt_cases hv with ⟨e, he⟩ | ⟨e₁, e₂, hes⟩
  · rw [bundleAt?_of_one he]
    exact .inr ⟨⟨e, he⟩, rfl⟩
  · obtain ⟨b, hb⟩ := h.bundleAt?_of_two hes
    rw [hb]
    exact .inl ⟨by rw [hes]; rfl, _, rfl⟩

theorem Severed.length_of_frameAt (h : m.Severed) (hv : v ∈ m.featureVertices)
    {x : VertexId × Frame α} (hx : (m.frameAt v).result = .ok x) :
    (m.featureEdgesAt v).length = 2 := by
  rcases h.frameAt_cases hv with ⟨htwo, _⟩ | ⟨_, herr⟩
  · exact htwo
  · rw [herr] at hx
    cases hx

/-- all frames are found, one for each feature vertex, or the first feature vertex without two
feature edges has one -/
theorem Severed.darbouxFrames_cases (h : m.Severed) :
    ((∀ v ∈ m.featureVertices, (m.featureEdgesAt v).length = 2) ∧
        ∃ frames, m.darbouxFrames.result = .ok frames ∧
          frames.map Prod.fst = m.featureVertices) ∨
      ∃ pre v post e, m.featureVertices = pre ++ v :: post ∧
        (∀ u ∈ pre, (m.featureEdgesAt u).length = 2) ∧ m.featureEdgesAt v = [e] ∧
        m.darbouxFrames.result = .error (.mesh (.featureValence v 1)) := by
  unfold darbouxFrames
  rw [Logged.result_mapM]
  cases hframes : m.featureVertices.mapM fun v => (m.frameAt v).result with
  | ok frames =>
    have hall := mapM_eq_ok_iff.mp hframes
    have hfst : List.Forall₂ (fun v x => v = x.1) m.featureVertices frames :=
      hall.imp fun _ _ => fst_of_frameAt
    rw [← List.forall₂_map_right_iff, List.forall₂_eq_eq_eq] at hfst
    refine .inl ⟨fun v hv => ?_, frames, rfl, hfst.symm⟩
    obtain ⟨i, hi⟩ := List.mem_iff_getElem?.mp hv
    obtain ⟨x, _, hx⟩ := exists_of_forall₂ hall hi
    exact h.length_of_frameAt hv hx
  | error fault =>
    obtain ⟨pre, v, post, hsplit, hpre, hstop⟩ := mapM_stopped_first hframes
    have hmem : ∀ u, u ∈ pre ∨ u = v → u ∈ m.featureVertices := by
      rw [hsplit]
      grind
    rcases h.frameAt_cases (hmem v (.inr rfl)) with ⟨_, frame, hok⟩ | ⟨⟨e, he⟩, herr⟩
    · rw [hok] at hstop
      cases hstop
    · rw [herr] at hstop
      refine .inr ⟨pre, v, post, e, hsplit, fun u hu => ?_, he, ?_⟩
      · obtain ⟨x, hx⟩ := hpre u hu
        exact h.length_of_frameAt (hmem u (.inl hu)) hx
      · exact congrArg _ (Except.error.inj hstop).symm

omit [Trig α] in
/-- the axes of frames at vertices of the mesh -/
theorem frameAxes_ok {frames : List (VertexId × Frame α)}
    (hlt : ∀ v ∈ frames.map Prod.fst, v < m.vertices.size) :
    ∃ p, Payload.frameAxes m frames = .ok p := by
  have total : ∀ x ∈ frames, ∃ axes, (do
      let p ← m.position x.1
      return x.2.axes.map (p, ·) : Except Fault (List (Vec3 α × Vec3 α))) = .ok axes := by
    intro x hx
    rw [position_of_lt (hlt x.1 (List.mem_map_of_mem hx))]
    exact ⟨_, rfl⟩
  obtain ⟨items, hitems⟩ := mapM_total total
  exact ⟨.vectors items.flatten, bind_eq_ok_iff.mpr ⟨items, hitems, rfl⟩⟩

theorem Severed.framesIfWanted_cases (h : m.Severed) (wanted : Bool) :
    (∃ k, (m.framesIfWanted wanted).result = .ok k) ∨
      wanted = true ∧ ∃ v e, m.featureEdgesAt v = [e] ∧
        (m.framesIfWanted wanted).result = .error (.mesh (.featureValence v 1)) := by
  cases wanted with
  | false => exact .inl ⟨none, rfl⟩
  | true =>
    have hrun : (m.framesIfWanted true).result = (m.darbouxFrames.result >>= fun frames =>
        Payload.frameAxes m frames >>= fun _ => .ok (some frames)) := by
      unfold framesIfWanted
      simp only [if_true, Logged.result_bind, Logged.result_lift, Logged.result_emit]
      rfl
    rw [hrun]
    rcases h.darbouxFrames_cases with ⟨_, frames, hframes, hvs⟩ | ⟨_, v, _, e, _, _, he, herr⟩
    · have hlt : ∀ v ∈ frames.map Prod.fst, v < m.vertices.size := by
        intro v hv
        rw [hvs, h.coherent.starred.mem_featureVertices] at hv
        obtain ⟨e, _, hend⟩ := hv
        exact h.coherent.end_lt hend
      obtain ⟨p, hp⟩ := frameAxes_ok hlt
      rw [hframes, ok_bind, hp]
      exact .inl ⟨some frames, rfl⟩
    · rw [herr]
      exact .inr ⟨rfl, v, e, he, rfl⟩

end

/-! ## the whole pipeline -/

section
variable [Scalar α] [Extended α] [Trig α] {m : Mesh α}

/-- Whatever the coordinates are, the pipeline completes on every mesh that the library gives, or
frames are wanted and a vertex of the cut mesh has one feature edge only.  A loop that its bound cuts
short is a fault, so all loops of a pipeline that completes, the search for distances included, come
to their end. -/
theorem computeCutGraph_total [LawfulLengths α] (h : Obtained m) (options : Options α) :
    (∃ r, (m.computeCutGraph options).result = .ok r) ∨
      options.frames = true ∧ ∃ c v e, m.cutAlongFeatures = .ok c ∧
        c.mesh.featureEdgesAt v = [e] ∧
        (m.computeCutGraph options).result = .error (.mesh (.featureValence v 1)) := by
  by_cases hm : m.Constrained
  · have coh := h.coherent
    obtain ⟨c, r, hok, hresult⟩ := cutStages_upTo_frames coh options
    obtain ⟨c', s, hok', hcut⟩ := h.cut
    obtain rfl := Except.ok.inj (hok.symm.trans hok')
    rw [computeCutGraph_of_constrained hm, hresult]
    rcases (hcut.severed coh).framesIfWanted_cases options.frames with
      ⟨k, hk⟩ | ⟨hwanted, v, e, he, herr⟩
    · rw [hk]
      exact .inl ⟨_, rfl⟩
    · rw [herr]
      exact .inr ⟨hwanted, c, v, e, hok, he, rfl⟩
  · exact .inl ⟨m.uncut, result_of_not_constrained hm options⟩

theorem total_threeTriangles : ∃ m, threeTriangles.result = .ok m ∧
    ∀ options : Options Float, (∃ r, (m.computeCutGraph options).result = .ok r) ∨
      options.frames = true ∧ ∃ c v e, m.cutAlongFeatures = .ok c ∧
        c.mesh.featureEdgesAt v = [e] ∧
        (m.computeCutGraph options).result = .error (.mesh (.featureValence v 1)) := by
  obtain ⟨m, hm, _⟩ := threeTriangles_ok
  exact ⟨m, hm, computeCutGraph_total (.ofTriangles hm)⟩

/-- the feature of three triangles is a segment, so there are no frames at its ends -/
example : yields threeTriangles.result (fun m => stopsWith
    (m.computeCutGraph ⟨none, default, true⟩).result (.mesh (.featureValence 0 1))) = true := by
  decide +kernel

end

end Mesh
end DiskCut
