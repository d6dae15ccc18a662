import DiskCut.Proofs.FeatureCut.Separation
import DiskCut.Proofs.Mesh.Coherent

/-!
# The images of the feature edges

Feature edges are inserted into the cut mesh while fans are still being separated.

* `sideIn m corners t k`   the pair that `corners` has where triangle `t` has the side `k`
* `Drawn P frame cut`      a mesh of feature edges only, each with a line, all satisfying `P`
* `Imaged m done corners`  pairs and tags that are images of the edges `done`
* `Cutting m bare done`    what holds after the feature edges `done`
* `cutEdges_spec`          all feature edges cut

The images recorded for an edge stay right: both its ends are reached by then at all its triangles,
and a corner that is reached moves no more.
-/

namespace DiskCut
open Std
namespace Mesh
variable {α : Type} {m : Mesh α} {e : EdgeId} {t u : TriangleId} {v : VertexId}
  {k k' : VertexId × VertexId}

/-! ## sides that move -/

/-- the pair that `corners` has where triangle `t` of `m` has the side `k` -/
def sideIn (m : Mesh α) (corners : Array (Triple VertexId)) (t : TriangleId)
    (k : VertexId × VertexId) : Option (VertexId × VertexId) :=
  (m.cornerIn corners t k.1).bind fun a => (m.cornerIn corners t k.2).map (edgeKey a)

section
variable {corners : Array (Triple VertexId)} {vs ws : Triple VertexId}

theorem sideIn_eq_some_iff : m.sideIn corners t k = some k' ↔
    ∃ a b, m.cornerIn corners t k.1 = some a ∧ m.cornerIn corners t k.2 = some b ∧
      edgeKey a b = k' := by
  unfold sideIn
  simp only [Option.bind_eq_some_iff, Option.map_eq_some_iff]
  grind

theorem Proper.sideIn_keys (h : m.Proper) (hvs : m.triangles[t]? = some vs)
    (hws : corners[t]? = some ws) (j : Fin 3) :
    m.sideIn corners t (vs.keys.get j) = some (ws.keys.get j) := by
  have h₀ := h.cornerIn_get hvs hws j
  have h₁ := h.cornerIn_get hvs hws (j + 1)
  rw [sideIn_eq_some_iff, Triple.get_keys, Triple.get_keys]
  rcases edgeKey_cases (vs.get j) (vs.get (j + 1)) with hk | hk
  · rw [hk]
    exact ⟨_, _, h₀, h₁, rfl⟩
  · rw [hk]
    exact ⟨_, _, h₁, h₀, edgeKey_comm _ _⟩

theorem sideIn_congr {corners' : Array (Triple VertexId)}
    (h₁ : m.cornerIn corners' u k.1 = m.cornerIn corners t k.1)
    (h₂ : m.cornerIn corners' u k.2 = m.cornerIn corners t k.2) :
    m.sideIn corners' u k = m.sideIn corners t k := by
  unfold sideIn
  rw [h₁, h₂]

end

/-! ## meshes of feature edges -/

/-- the edges of `cut` are features that satisfy `P`, each with its line; triangles and
singularities are those of `frame` -/
structure Drawn (P : VertexId × VertexId → Option Int → Prop) (frame cut : Mesh α) : Prop where
  tabled : cut.Tabled
  triangles : cut.triangles = frame.triangles
  singularities : cut.singularities = frame.singularities
  edges : ∀ {e : EdgeId} {x : Edge α}, cut.edges[e]? = some x →
    x.isFeature = true ∧ P x.ends x.curve
  lines : cut.lines.toList = cut.edges.toList.map fun x => ⟨x.ends, x.curve⟩
  features : ∀ e, e ∈ cut.featureEdges ↔ e < cut.edges.size

section
variable {P Q : VertexId × VertexId → Option Int → Prop} {frame cut cut' : Mesh α}

theorem Drawn.mono (h : Drawn P frame cut) (hPQ : ∀ k c, P k c → Q k c) : Drawn Q frame cut where
  tabled := h.tabled
  triangles := h.triangles
  singularities := h.singularities
  edges := fun hx => ⟨(h.edges hx).1, hPQ _ _ (h.edges hx).2⟩
  lines := h.lines
  features := h.features

theorem Drawn.withTriangles (h : Drawn P frame cut) (corners : Array (Triple VertexId)) :
    Drawn P { frame with triangles := corners } { cut with triangles := corners } :=
  { h with tabled := { h.tabled with }, triangles := rfl }

variable [Scalar α]

/-- one feature edge more, unless the pair is an edge already -/
theorem Drawn.insert (h : Drawn P frame cut) {a b : VertexId} {curve : Option Int}
    (hP : P (edgeKey a b) curve) :
    Drawn P frame (cut.insertFeatureEdge a b curve).1 ∧
      Extends cut (cut.insertFeatureEdge a b curve).1 ∧
      ∃ e, (cut.insertFeatureEdge a b curve).1.edgeIndex[edgeKey a b]? = some e := by
  rcases insertFeatureEdge_cases cut a b curve with ⟨e, he, hins⟩ | ⟨hnone, hins⟩
  · rw [hins]
    exact ⟨h, .refl cut, e, he⟩
  · rw [hins]
    have htab := h.tabled.push (x := featureEdge a b curve) (edgeKey_fst_le a b) hnone
    have hext := extends_pushEdge (x := featureEdge a b curve) hnone
    refine ⟨⟨{ htab with }, h.triangles, h.singularities, ?_, ?_, ?_⟩, ⟨hext.index, rfl⟩,
      cut.edges.size, ExtTreeMap.getElem?_insert_self⟩
    · intro e x hx
      change (cut.edges.push (featureEdge a b curve))[e]? = some x at hx
      rw [Array.getElem?_push] at hx
      split at hx
      · obtain rfl := Option.some.inj hx
        exact ⟨rfl, hP⟩
      · exact h.edges hx
    · show (cut.lines.push _).toList = (cut.edges.push _).toList.map _
      rw [Array.toList_push, Array.toList_push, List.map_append, h.lines]
      rfl
    · intro e
      show e ∈ cut.featureEdges.insert cut.edges.size ↔ e < (cut.edges.push _).size
      rw [ExtTreeSet.mem_insert, Nat.compare_eq_eq, h.features, Array.size_push,
        Nat.lt_add_one_iff_lt_or_eq, or_comm, eq_comm]

theorem splitSide_eq (x : Edge α) (cut : Mesh α)
    (side : (VertexId × VertexId) × VertexId × VertexId) :
    splitSide x cut side = if edgeKey side.1.1 side.1.2 = x.ends then
      (cut.insertFeatureEdge side.2.1 side.2.2 x.curve).1 else cut := rfl

/-- the sides of one triangle on a feature edge -/
theorem Drawn.splitSides {x : Edge α} (sides : List ((VertexId × VertexId) × VertexId × VertexId))
    (hP : ∀ side ∈ sides, edgeKey side.1.1 side.1.2 = x.ends →
      P (edgeKey side.2.1 side.2.2) x.curve)
    (h : Drawn P frame cut) :
    Drawn P frame (sides.foldl (splitSide x) cut) ∧
      Extends cut (sides.foldl (splitSide x) cut) ∧
      ∀ side ∈ sides, edgeKey side.1.1 side.1.2 = x.ends →
        ∃ e, (sides.foldl (splitSide x) cut).edgeIndex[edgeKey side.2.1 side.2.2]? = some e := by
  induction sides generalizing cut with
  | nil => exact ⟨h, .refl cut, by simp⟩
  | cons side sides ih =>
    rw [List.foldl_cons]
    have hstep : Drawn P frame (splitSide x cut side) ∧ Extends cut (splitSide x cut side) ∧
        (edgeKey side.1.1 side.1.2 = x.ends →
          ∃ e, (splitSide x cut side).edgeIndex[edgeKey side.2.1 side.2.2]? = some e) := by
      by_cases hside : edgeKey side.1.1 side.1.2 = x.ends
      · obtain ⟨hd, hext, hknown⟩ := h.insert (hP side List.mem_cons_self hside)
        rw [splitSide_eq, if_pos hside]
        exact ⟨hd, hext, fun _ => hknown⟩
      · rw [splitSide_eq, if_neg hside]
        exact ⟨h, .refl cut, fun hk => absurd hk hside⟩
    obtain ⟨hd, hext, hknown⟩ := hstep
    obtain ⟨hd', hext', hknown'⟩ := ih
      (fun side' hmem => hP side' (List.mem_cons_of_mem _ hmem)) hd
    refine ⟨hd', hext.trans hext', fun side' hmem hside => ?_⟩
    rcases List.mem_cons.mp hmem with rfl | hmem
    · obtain ⟨e, he⟩ := hknown hside
      exact ⟨e, hext'.index he⟩
    · exact hknown' side' hmem hside

end

/-! ## one feature edge -/

section
variable [Scalar α] {P : VertexId × VertexId → Option Int → Prop} {frame cut : Mesh α}

theorem mem_zip_sides {vs ws : Triple VertexId}
    {side : (VertexId × VertexId) × VertexId × VertexId} :
    side ∈ vs.sides.toList.zip ws.sides.toList ↔
      ∃ j, side = ((vs.get j, vs.get (j + 1)), ws.get j, ws.get (j + 1)) := by
  refine ⟨?_, ?_⟩
  · intro h
    simp only [Triple.sides, Triple.toList, List.zip_cons_cons, List.zip_nil_right, List.mem_cons,
      List.not_mem_nil, or_false] at h
    rcases h with rfl | rfl | rfl
    · exact ⟨0, rfl⟩
    · exact ⟨1, rfl⟩
    · exact ⟨2, rfl⟩
  · intro h
    obtain ⟨j, hj⟩ := h
    obtain rfl | rfl | rfl : j = 0 ∨ j = 1 ∨ j = 2 := by
      clear hj
      decide +revert
    · exact hj ▸ List.mem_cons_self
    · exact hj ▸ List.mem_cons_of_mem _ List.mem_cons_self
    · exact hj ▸ List.mem_cons_of_mem _ (List.mem_cons_of_mem _ List.mem_cons_self)

/-- the image of a feature edge inserted as one of its triangles sees it -/
theorem Drawn.splitAt (h : Drawn P frame cut) (fit : m.Fitted) {x : Edge α}
    (hx : m.edges[e]? = some x) (ht : m.Incident e t)
    (size : frame.triangles.size = m.triangles.size)
    (hP : ∀ k, m.sideIn frame.triangles t x.ends = some k → P k x.curve) :
    ∃ cut', m.splitAt x cut t = .ok cut' ∧ Drawn P frame cut' ∧ Extends cut cut' ∧
      ∃ k e', m.sideIn frame.triangles t x.ends = some k ∧ cut'.edgeIndex[k]? = some e' := by
  obtain ⟨y, vs, hy, hvs, j, hj⟩ := fit.incident_iff.mp ht
  rw [hx] at hy
  obtain rfl := Option.some.inj hy
  have hlt := (Array.getElem?_eq_some_iff.mp hvs).1
  rw [← size] at hlt
  obtain ⟨ws, hws⟩ : ∃ ws, frame.triangles[t]? = some ws :=
    ⟨_, Array.getElem?_eq_getElem hlt⟩
  have hws' := hws
  rw [← h.triangles] at hws'
  have hside := fun i => Proper.sideIn_keys fit.proper hvs hws i
  obtain ⟨hd, hext, hknown⟩ := h.splitSides (x := x) (vs.sides.toList.zip ws.sides.toList) (by
    intro side hmem hkey
    obtain ⟨i, rfl⟩ := mem_zip_sides.mp hmem
    apply hP _
    have hi := hside i
    rw [Triple.get_keys, Triple.get_keys] at hi
    rw [← hkey]
    exact hi)
  refine ⟨_, ?_, hd, hext, ws.keys.get j, ?_⟩
  · unfold Mesh.splitAt triangle
    rw [fetch_eq_ok_iff.mpr hvs, fetch_eq_ok_iff.mpr hws']
    rfl
  · obtain ⟨e', he'⟩ := hknown _ (mem_zip_sides.mpr ⟨j, rfl⟩) (by
      rw [← hj, Triple.get_keys])
    refine ⟨e', ?_, ?_⟩
    · rw [← hj]
      exact hside j
    · rw [Triple.get_keys]
      exact he'

/-- all images of a feature edge inserted -/
theorem Drawn.splitEdge (h : Drawn P frame cut) (fit : m.Fitted) {x : Edge α}
    (hx : m.edges[e]? = some x) (size : frame.triangles.size = m.triangles.size)
    (hP : ∀ t k, m.Incident e t → m.sideIn frame.triangles t x.ends = some k → P k x.curve) :
    ∃ cut', m.splitEdge cut e = .ok cut' ∧ Drawn P frame cut' ∧ Extends cut cut' ∧
      ∀ t, m.Incident e t →
        ∃ k e', m.sideIn frame.triangles t x.ends = some k ∧ cut'.edgeIndex[k]? = some e' := by
  obtain ⟨ts, hts, hmem⟩ := fit.trianglesAt_ok (Array.getElem?_eq_some_iff.mp hx).1
  have keep : ∀ pre t post (c : Mesh α), ts = pre ++ t :: post →
      Drawn P frame c ∧ Extends cut c ∧ (∀ u ∈ pre,
        ∃ k e', m.sideIn frame.triangles u x.ends = some k ∧ c.edgeIndex[k]? = some e') →
      ∃ next, m.splitAt x c t = .ok next ∧ Drawn P frame next ∧ Extends cut next ∧
        ∀ u ∈ pre ++ [t],
          ∃ k e', m.sideIn frame.triangles u x.ends = some k ∧ next.edgeIndex[k]? = some e' := by
    intro pre t post c hsplit ⟨hc, hext, hpre⟩
    have ht : m.Incident e t := (hmem t).mp (by rw [hsplit]; simp)
    obtain ⟨next, hnext, hd, hext', hknown⟩ := hc.splitAt fit hx ht size fun k => hP t k ht
    refine ⟨next, hnext, hd, hext.trans hext', fun u hu => ?_⟩
    rcases List.mem_append.mp hu with hu | hu
    · obtain ⟨k, e', hk, he'⟩ := hpre u hu
      exact ⟨k, e', hk, hext'.index he'⟩
    · rw [List.mem_singleton.mp hu]
      exact hknown
  obtain ⟨cut', hok, hd, hext, hall⟩ := foldlM_total
    (P := fun done c => Drawn P frame c ∧ Extends cut c ∧ ∀ u ∈ done,
      ∃ k e', m.sideIn frame.triangles u x.ends = some k ∧ c.edgeIndex[k]? = some e')
    (f := m.splitAt x) keep ⟨h, .refl cut, by simp⟩
  refine ⟨cut', ?_, hd, hext, fun t ht => hall t ((hmem t).mpr ht)⟩
  unfold Mesh.splitEdge edge
  simp only [fetch_eq_ok_iff.mpr hx, hts, bind, Except.bind]
  exact hok

end

/-! ## all feature edges -/

/-- pair and tag of an image of one of the edges `done` -/
def Imaged (m : Mesh α) (done : List EdgeId) (corners : Array (Triple VertexId))
    (k : VertexId × VertexId) (curve : Option Int) : Prop :=
  ∃ e ∈ done, ∃ x t, m.edges[e]? = some x ∧ m.Incident e t ∧
    m.sideIn corners t x.ends = some k ∧ curve = x.curve

/-- the edges `done` are cut: their fans are separated and their images inserted -/
structure Cutting (m bare : Mesh α) (done : List EdgeId) (state : Separation × Mesh α) :
    Prop where
  separated : Separated m state.1
  seen : ∀ e ∈ done, ∀ t v, m.Incident e t → m.IsEnd e v → (t, v) ∈ state.1.reached
  drawn : Drawn (m.Imaged done state.1.triangles)
    { bare with triangles := state.1.triangles } state.2
  complete : ∀ e ∈ done, ∀ x t, m.edges[e]? = some x → m.Incident e t →
    ∃ k e', m.sideIn state.1.triangles t x.ends = some k ∧ state.2.edgeIndex[k]? = some e'

section
variable [Scalar α] {bare : Mesh α} {done : List EdgeId} {state : Separation × Mesh α}

omit [Scalar α] in
/-- the images of edges that are cut stay right while further fans are separated -/
theorem Cutting.sideIn_later {s' : Separation} (h : Cutting m bare done state)
    (hlater : Later m state.1 s') (he : e ∈ done) {x : Edge α} (hx : m.edges[e]? = some x)
    (ht : m.Incident e t) :
    m.sideIn s'.triangles t x.ends = m.sideIn state.1.triangles t x.ends :=
  sideIn_congr (hlater.fixed (h.seen e he t _ ht ⟨x, hx, .inl rfl⟩))
    (hlater.fixed (h.seen e he t _ ht ⟨x, hx, .inr rfl⟩))

/-- one feature edge more -/
theorem Cutting.cutEdge (h : Cutting m bare done state) (fit : m.Fitted) (he : m.IsFeature e) :
    ∃ next, m.cutEdge state e = .ok next ∧ Cutting m bare (done ++ [e]) next := by
  obtain ⟨x, hx, _⟩ := id he
  obtain ⟨s', hs', hsep, hlater, hseen⟩ := separateEdge_spec fit h.separated he
  have hdrawn : Drawn (m.Imaged (done ++ [e]) s'.triangles)
      { bare with triangles := s'.triangles } { state.2 with triangles := s'.triangles } := by
    refine (h.drawn.withTriangles s'.triangles).mono fun k c hk => ?_
    obtain ⟨e', he', y, t, hy, ht, hside, hcurve⟩ := hk
    exact ⟨e', List.mem_append_left _ he', y, t, hy, ht,
      (h.sideIn_later hlater he' hy ht).trans hside, hcurve⟩
  obtain ⟨cut', hcut', hd, hext, hknown⟩ := hdrawn.splitEdge fit hx hsep.size
    fun t k ht hside => ⟨e, by simp, x, t, hx, ht, hside, rfl⟩
  refine ⟨(s', cut'), ?_, hsep, ?_, hd, ?_⟩
  · unfold Mesh.cutEdge
    simp only [hs', hcut', bind, Except.bind, pure, Except.pure]
  · intro e' he' t v ht hv
    rcases List.mem_append.mp he' with he' | he'
    · exact hlater.mono _ (h.seen e' he' t v ht hv)
    · rw [List.mem_singleton.mp he'] at ht hv
      exact hseen t v ht hv
  · intro e' he' y t hy ht
    rcases List.mem_append.mp he' with he' | he'
    · obtain ⟨k, i, hk, hi⟩ := h.complete e' he' y t hy ht
      exact ⟨k, i, (h.sideIn_later hlater he' hy ht).trans hk, hext.index hi⟩
    · obtain rfl := List.mem_singleton.mp he'
      rw [hx] at hy
      obtain rfl := Option.some.inj hy
      exact hknown t ht

omit [Scalar α] in
/-- nothing is cut at first -/
theorem cutting_start (proper : m.Proper) (triangles : bare.triangles = m.triangles)
    (tabled : bare.Tabled) (edges : bare.edges = #[]) (lines : bare.lines = #[])
    (features : bare.featureEdges = ∅) : Cutting m bare [] (.start m, bare) := by
  refine ⟨separated_start proper, by simp, ?_, by simp⟩
  exact {
    tabled := tabled
    triangles := triangles
    singularities := rfl
    edges := by
      intro e x hx
      change bare.edges[e]? = some x at hx
      rw [edges] at hx
      cases hx
    lines := by
      show bare.lines.toList = bare.edges.toList.map _
      rw [edges, lines]
      rfl
    features := by
      intro e
      show e ∈ bare.featureEdges ↔ e < bare.edges.size
      rw [edges, features]
      refine ⟨?_, ?_⟩
      · intro he
        exact absurd he ExtTreeSet.not_mem_empty
      · intro he
        exact absurd he (Nat.not_lt_zero e) }

/-- the feature edges of a sound mesh are all cut -/
theorem cutEdges_spec (h : m.Sound) (triangles : bare.triangles = m.triangles)
    (tabled : bare.Tabled) (edges : bare.edges = #[]) (lines : bare.lines = #[])
    (features : bare.featureEdges = ∅) :
    ∃ state, m.cutEdges bare = .ok state ∧ Cutting m bare m.featureEdges.toList state := by
  have keep : ∀ pre e post (state : Separation × Mesh α), m.featureEdges.toList = pre ++ e :: post →
      Cutting m bare pre state →
      ∃ next, m.cutEdge state e = .ok next ∧ Cutting m bare (pre ++ [e]) next := by
    intro pre e post state hsplit hstate
    have he : e ∈ m.featureEdges := by
      rw [← ExtTreeSet.mem_toList, hsplit]
      simp
    exact hstate.cutEdge h.toFitted ((h.feature e).mp he)
  exact foldlM_total keep (cutting_start h.proper triangles tabled edges lines features)

end
end Mesh
end DiskCut
