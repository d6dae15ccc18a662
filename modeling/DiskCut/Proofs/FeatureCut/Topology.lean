import DiskCut.Proofs.Obtained

/-!
# The topology of the cut mesh

* `Over m c e' e`       edge `e'` of the cut mesh lies over the edge `e`: its ends come from the ends
                        of `e`
* `Cut.over_iff`        seen from a triangle, `e'` is where the side on `e` has moved
* `Cut.incident_iff_of_image`   another triangle sees the same image when both its corners have moved
                        together with those of the first
* `CutTopology m c`     which edges lie over which, with which triangles
* `cutAlongFeatures_topology`   so it is on every mesh that the library gives

The corners of two triangles at a plain edge move together, since the edge puts them into one fan at
either end; at a feature edge they do exactly when the triangles are in one fan.
-/

namespace DiskCut
open Std
namespace Mesh
variable {α : Type}

/-- the ends of edge `e'` of the cut mesh come from the ends of edge `e` -/
def Over (m : Mesh α) (c : FeatureCut α) (e' e : EdgeId) : Prop :=
  ∃ x' x a b, c.mesh.edges[e']? = some x' ∧ m.edges[e]? = some x ∧
    c.originOf x'.ends.1 = .ok a ∧ c.originOf x'.ends.2 = .ok b ∧ edgeKey a b = x.ends

theorem Over.lt_size {m : Mesh α} {c : FeatureCut α} {e' e : EdgeId} (h : m.Over c e' e) :
    e' < c.mesh.edges.size := by
  obtain ⟨x', _, _, _, hx', _⟩ := h
  exact (Array.getElem?_eq_some_iff.mp hx').1

/-- which edges of the cut mesh lie over which edges, and what they carry -/
structure CutTopology (m : Mesh α) (c : FeatureCut α) : Prop where
  valid : c.mesh.isValid = true
  /-- every edge of the cut mesh lies over one edge -/
  image : ∀ e' < c.mesh.edges.size, ∃! e, m.Over c e' e
  onto : ∀ e < m.edges.size, ∃ e', m.Over c e' e
  plain : ∀ e, m.IsPlain e → ∃ e', (∀ e'', m.Over c e'' e ↔ e'' = e') ∧ c.mesh.IsPlain e' ∧
    c.mesh.edgeTriangles[e']? = m.edgeTriangles[e]?
  dual : ∀ t u, c.mesh.Dual t u ↔ m.Dual t u
  /-- a feature edge with one triangle has one image -/
  boundary : ∀ e t, m.IsFeature e → m.edgeTriangles[e]? = some [t] →
    ∃ e', (∀ e'', m.Over c e'' e ↔ e'' = e') ∧ c.mesh.edgeTriangles[e']? = some [t]
  /-- a feature edge between different fans at one of its ends has two images -/
  split : ∀ e t u, m.IsFeature e → m.edgeTriangles[e]? = some [t, u] →
    (∃ v, m.IsEnd e v ∧ ¬ m.SameFan v t u) →
    ∃ e₁ e₂, e₁ ≠ e₂ ∧ (∀ e', m.Over c e' e ↔ e' = e₁ ∨ e' = e₂) ∧
      c.mesh.edgeTriangles[e₁]? = some [t] ∧ c.mesh.edgeTriangles[e₂]? = some [u]
  /-- a feature edge inside one fan at both ends has one image -/
  whole : ∀ e t u, m.IsFeature e → m.edgeTriangles[e]? = some [t, u] →
    (∀ v, m.IsEnd e v → m.SameFan v t u) →
    ∃ e', (∀ e'', m.Over c e'' e ↔ e'' = e') ∧ c.mesh.edgeTriangles[e']? = some [t, u]
  feature : ∀ e' e, m.IsFeature e → m.Over c e' e → ∃ x' x : Edge α,
    c.mesh.edges[e']? = some x' ∧ m.edges[e]? = some x ∧ x'.isFeature = true ∧ x'.curve = x.curve
  /-- line number `i` is that of feature edge number `i` -/
  line : ∀ (i : Nat) (line : Line), c.mesh.lines[i]? = some line → ∃ x : Edge α,
    c.mesh.edges[i]? = some x ∧ x.isFeature = true ∧ line = ⟨x.ends, x.curve⟩
  line_lt : ∀ e, c.mesh.IsFeature e ↔ e < c.mesh.lines.size
  featureEdges : ∀ e, e ∈ c.mesh.featureEdges ↔ c.mesh.IsFeature e
  featureEdgesAt : ∀ v, c.mesh.featureEdgesAt v = c.mesh.raysAt v
  featureVertices : ∀ v, v ∈ c.mesh.featureVertices ↔ ∃ e, c.mesh.IsFeature e ∧ c.mesh.IsEnd e v

/-! ## corners that move together -/

section
variable {m : Mesh α} {s : Separation} {t u : TriangleId} {v : VertexId}

theorem Separated.cornerIn_eq_of_sameFan (hs : Separated m s) (fit : m.Fitted)
    (ht : m.IsCorner t v) (htu : m.SameFan v t u) :
    m.cornerIn s.triangles t v = m.cornerIn s.triangles u v := by
  by_cases hreached : (t, v) ∈ s.reached
  · exact hs.same hreached htu
  · have hno : (u, v) ∉ s.reached := fun hmem => hreached (hs.mem_of_sameFan hmem htu.symm)
    rw [hs.kept ht hreached, hs.kept (fit.isCorner_of_sameFan ht htu) hno]

theorem incident_iff_mem {e : EdgeId} {ts : List TriangleId} (hts : m.edgeTriangles[e]? = some ts) :
    m.Incident e t ↔ t ∈ ts := by
  refine ⟨?_, ?_⟩
  · intro ⟨us, hus, ht⟩
    rw [hts] at hus
    exact Option.some.inj hus ▸ ht
  · intro ht
    exact ⟨ts, hts, ht⟩

end

namespace Cut
variable {m : Mesh α} {c : FeatureCut α} {s : Separation} (h : Cut m c s) (fit : m.Fitted)
  {e e' e₁ e₂ : EdgeId} {t u : TriangleId} {v : VertexId} {x x' : Edge α}
include h fit

/-! ## images seen from a triangle -/

theorem originOf_of_cornerIn {w : VertexId} (hw : m.cornerIn s.triangles t v = some w) :
    c.originOf w = .ok v := by
  unfold FeatureCut.originOf
  rw [h.origin, fetch_eq_ok_iff]
  exact h.separated.origin_cornerIn fit hw

theorem over_of_sideIn (hx' : c.mesh.edges[e']? = some x') (hx : m.edges[e]? = some x)
    (hside : m.sideIn s.triangles t x.ends = some x'.ends) : m.Over c e' e := by
  obtain ⟨p, q, hp, hq, hpq⟩ := sideIn_eq_some_iff.mp hside
  have hp' := h.originOf_of_cornerIn fit hp
  have hq' := h.originOf_of_cornerIn fit hq
  have hends := fit.tabled.edgeKey_ends hx
  rcases edgeKey_cases p q with hk | hk
  · rw [hk] at hpq
    exact ⟨x', x, x.ends.1, x.ends.2, hx', hx, by rw [← hpq]; exact hp',
      by rw [← hpq]; exact hq', hends⟩
  · rw [hk] at hpq
    exact ⟨x', x, x.ends.2, x.ends.1, hx', hx, by rw [← hpq]; exact hq',
      by rw [← hpq]; exact hp', by rw [edgeKey_comm, hends]⟩

/-- seen from a triangle, an image is where the side on the edge has moved -/
theorem over_iff (hx' : c.mesh.edges[e']? = some x') (ht : c.mesh.Incident e' t) :
    m.Over c e' e ↔ ∃ x, m.edges[e]? = some x ∧ m.Incident e t ∧
      m.sideIn s.triangles t x.ends = some x'.ends := by
  have hfit := h.coherent.toFitted
  refine ⟨?_, ?_⟩
  · intro ⟨y', x, a, b, hy', hx, ha, hb, hends⟩
    rw [hx'] at hy'
    obtain rfl := Option.some.inj hy'
    obtain ⟨z', ws, hz', hws, j, hj⟩ := hfit.incident_iff.mp ht
    rw [hx'] at hz'
    obtain rfl := Option.some.inj hz'
    rw [h.triangles] at hws
    obtain ⟨vs, hvs⟩ := h.separated.exists_corners hws
    have hside := Proper.sideIn_keys fit.proper hvs hws j
    rw [hj, sideIn_eq_some_iff] at hside
    obtain ⟨p, q, hp, hq, hpq⟩ := hside
    have hp' := h.originOf_of_cornerIn fit hp
    have hq' := h.originOf_of_cornerIn fit hq
    have hkey : edgeKey a b = vs.keys.get j := by
      have hle : edgeKey (vs.keys.get j).1 (vs.keys.get j).2 = vs.keys.get j := by
        rw [Triple.get_keys]
        exact edgeKey_of_le (edgeKey_fst_le _ _)
      rw [← hle]
      rcases edgeKey_cases p q with hk | hk
      · rw [hk] at hpq
        rw [← hpq] at ha hb
        rw [Except.ok.inj (ha.symm.trans hp'), Except.ok.inj (hb.symm.trans hq')]
      · rw [hk] at hpq
        rw [← hpq] at ha hb
        rw [Except.ok.inj (ha.symm.trans hq'), Except.ok.inj (hb.symm.trans hp'), edgeKey_comm]
    refine ⟨x, hx, fit.incident_iff.mpr ⟨x, vs, hx, hvs, j, hkey.symm.trans hends⟩, ?_⟩
    rw [← hends, hkey, Proper.sideIn_keys fit.proper hvs hws j, hj]
  · intro ⟨x, hx, _, hside⟩
    exact h.over_of_sideIn fit hx' hx hside

omit h in
/-- an edge of the cut mesh lies over one edge only -/
theorem over_unique (he₁ : m.Over c e' e₁) (he₂ : m.Over c e' e₂) : e₁ = e₂ := by
  obtain ⟨x', x, a, b, hx', hx, ha, hb, hends⟩ := he₁
  obtain ⟨y', y, p, q, hy', hy, hp, hq, hends'⟩ := he₂
  rw [hx'] at hy'
  obtain rfl := Option.some.inj hy'
  obtain rfl := Except.ok.inj (ha.symm.trans hp)
  obtain rfl := Except.ok.inj (hb.symm.trans hq)
  exact fit.tabled.eq_of_ends hx hy (hends.symm.trans hends')

theorem incident_of_over (he : m.Over c e' e) (ht : c.mesh.Incident e' t) : m.Incident e t := by
  obtain ⟨x', _, _, _, hx', _⟩ := id he
  obtain ⟨x, _, hinc, _⟩ := (h.over_iff fit hx' ht).mp he
  exact hinc

/-- every triangle at an edge sees an image of it -/
theorem exists_image (ht : m.Incident e t) : ∃ e', m.Over c e' e ∧ c.mesh.Incident e' t := by
  have hfit := h.coherent.toFitted
  obtain ⟨x, vs, hx, hvs, j, hj⟩ := fit.incident_iff.mp ht
  obtain ⟨ws, hws⟩ := h.separated.exists_moved hvs
  have hside := Proper.sideIn_keys fit.proper hvs hws j
  rw [← h.triangles] at hws
  obtain ⟨e', ⟨x', hx', hends'⟩, ht'⟩ := hfit.exists_side hws j
  rw [← Triple.get_keys] at hends'
  refine ⟨e', (h.over_iff fit hx' ht').mpr ⟨x, hx, ht, ?_⟩, ht'⟩
  rw [hends', ← hj]
  exact hside

/-- a triangle sees one image of an edge only -/
theorem image_unique (he₁ : m.Over c e₁ e) (ht₁ : c.mesh.Incident e₁ t) (he₂ : m.Over c e₂ e)
    (ht₂ : c.mesh.Incident e₂ t) : e₁ = e₂ := by
  obtain ⟨x₁, _, _, _, hx₁, _⟩ := id he₁
  obtain ⟨x₂, _, _, _, hx₂, _⟩ := id he₂
  obtain ⟨x, hx, _, hside⟩ := (h.over_iff fit hx₁ ht₁).mp he₁
  obtain ⟨y, hy, _, hside'⟩ := (h.over_iff fit hx₂ ht₂).mp he₂
  rw [hx] at hy
  obtain rfl := Option.some.inj hy
  rw [hside] at hside'
  exact h.coherent.tabled.eq_of_ends hx₁ hx₂ (Option.some.inj hside')

theorem exists_over (he' : e' < c.mesh.edges.size) : ∃ e, m.Over c e' e := by
  have hfit := h.coherent.toFitted
  obtain ⟨t, ht⟩ := h.coherent.exists_incident he'
  obtain ⟨x', ws, hx', hws, j, hj⟩ := hfit.incident_iff.mp ht
  rw [h.triangles] at hws
  obtain ⟨vs, hvs⟩ := h.separated.exists_corners hws
  obtain ⟨e, ⟨x, hx, hends⟩, hinc⟩ := fit.exists_side hvs j
  refine ⟨e, (h.over_iff fit hx' ht).mpr ⟨x, hx, hinc, ?_⟩⟩
  rw [hends, ← Triple.get_keys, Proper.sideIn_keys fit.proper hvs hws j, hj]

/-- another triangle at the edge sees the same image when its corners there have moved to the same
vertices -/
theorem incident_iff_of_image (he : m.Over c e' e) (ht : c.mesh.Incident e' t)
    (hu : m.Incident e u) : c.mesh.Incident e' u ↔
      ∀ v, m.IsEnd e v → m.cornerIn s.triangles t v = m.cornerIn s.triangles u v := by
  obtain ⟨x', _, _, _, hx', _⟩ := id he
  obtain ⟨x, hx, hinc, hside⟩ := (h.over_iff fit hx' ht).mp he
  have hends : ∀ v, m.IsEnd e v ↔ x.ends.1 = v ∨ x.ends.2 = v := by
    intro v
    unfold IsEnd
    rw [hx]
    simp
  obtain ⟨p, q, hp, hq, hpq⟩ := sideIn_eq_some_iff.mp hside
  refine ⟨?_, ?_⟩
  · intro hu' v hv
    obtain ⟨y, hy, _, hside'⟩ := (h.over_iff fit hx' hu').mp he
    rw [hx] at hy
    obtain rfl := Option.some.inj hy
    obtain ⟨p', q', hp', hq', hpq'⟩ := sideIn_eq_some_iff.mp hside'
    -- the two corners cannot have changed places, for then the ends would be the same vertex
    have hstraight : p = p' ∧ q = q' := by
      rcases edgeKey_eq_iff.mp (hpq.trans hpq'.symm) with hs | ⟨hpq, _⟩
      · exact hs
      · have h₁ := h.originOf_of_cornerIn fit hp
        rw [hpq, h.originOf_of_cornerIn fit hq'] at h₁
        exact absurd (Except.ok.inj h₁).symm
          (fit.ne_of_joins hinc ⟨x, hx, (fit.tabled.edgeKey_ends hx).symm⟩)
    rcases (hends v).mp hv with rfl | rfl
    · rw [hp, hp', hstraight.1]
    · rw [hq, hq', hstraight.2]
  · intro hsame
    obtain ⟨e'', he'', hu''⟩ := h.exists_image fit hu
    obtain ⟨x'', _, _, _, hx'', _⟩ := id he''
    obtain ⟨y, hy, _, hside'⟩ := (h.over_iff fit hx'' hu'').mp he''
    rw [hx] at hy
    obtain rfl := Option.some.inj hy
    have hcongr := sideIn_congr (hsame _ ((hends _).mpr (.inl rfl)))
      (hsame _ ((hends _).mpr (.inr rfl)))
    rw [hside, hside'] at hcongr
    rw [h.coherent.tabled.eq_of_ends hx' hx'' (Option.some.inj hcongr)]
    exact hu''

end Cut

namespace Cut
variable {m : Mesh α} {c : FeatureCut α} {s : Separation} (h : Cut m c s) (coh : m.Coherent)
  {e e' e₁ e₂ : EdgeId} {t u : TriangleId} {v : VertexId}
include h coh

/-! ## flags and tags -/

/-- a feature edge of the cut mesh lies over a feature edge of the same curve -/
theorem feature_of_over (he : m.Over c e' e) (hf : c.mesh.IsFeature e') :
    m.IsFeature e ∧ ∃ x' x : Edge α, c.mesh.edges[e']? = some x' ∧ m.edges[e]? = some x ∧
      x'.isFeature = true ∧ x'.curve = x.curve := by
  have fit := coh.toFitted
  obtain ⟨x', hx', hfeature⟩ := hf
  obtain ⟨e₂, he₂, x, t, hx, ht, hside, hcurve⟩ := h.imaged hx' hfeature
  rw [over_unique fit he (h.over_of_sideIn fit hx' hx hside)]
  exact ⟨(coh.feature e₂).mp (ExtTreeSet.mem_toList.mp he₂), x', x, hx', hx, hfeature, hcurve⟩

theorem isFeature_iff_of_over (he : m.Over c e' e) : c.mesh.IsFeature e' ↔ m.IsFeature e := by
  have fit := coh.toFitted
  refine ⟨?_, ?_⟩
  · exact fun hf => (h.feature_of_over coh he hf).1
  · intro hf
    obtain ⟨x', _, _, _, hx', _⟩ := id he
    obtain ⟨t, ht⟩ := h.coherent.exists_incident he.lt_size
    obtain ⟨x, hx, hinc, hside⟩ := (h.over_iff fit hx' ht).mp he
    obtain ⟨k, hk, i, y, hy, hends, hfeature⟩ := h.drawn hf hx hinc
    rw [hside] at hk
    rw [h.coherent.tabled.eq_of_ends hx' hy ((Option.some.inj hk).trans hends.symm)]
    exact ⟨y, hy, hfeature⟩

theorem isPlain_iff_of_over (he : m.Over c e' e) : c.mesh.IsPlain e' ↔ m.IsPlain e := by
  have hlt : e < m.edges.size := by
    obtain ⟨_, _, _, _, _, hx, _⟩ := he
    exact (Array.getElem?_eq_some_iff.mp hx).1
  rw [isPlain_iff he.lt_size, isPlain_iff hlt, h.isFeature_iff_of_over coh he]

/-! ## the images of one edge -/

/-- an image that all triangles see is the only one -/
theorem sole_image (he : m.Over c e' e) (hall : ∀ u, m.Incident e u → c.mesh.Incident e' u) :
    (∀ e'', m.Over c e'' e ↔ e'' = e') ∧
      c.mesh.edgeTriangles[e']? = m.edgeTriangles[e]? := by
  have fit := coh.toFitted
  refine ⟨?_, ?_⟩
  · intro e''
    refine ⟨?_, ?_⟩
    · intro he''
      obtain ⟨t, ht⟩ := h.coherent.exists_incident he''.lt_size
      exact h.image_unique fit he'' ht he (hall t (h.incident_of_over fit he'' ht))
    · intro e
      rw [e]
      exact he
  · obtain ⟨_, x, _, _, _, hx, _⟩ := id he
    have hlt := (Array.getElem?_eq_some_iff.mp hx).1
    obtain ⟨ts, hts, hmem⟩ := fit.trianglesAt_ok hlt
    have hts := fetch_eq_ok_iff.mp hts
    rw [hts]
    refine h.coherent.edgeTriangles_eq he.lt_size (fit.sorted hts) fun t => ?_
    rw [hmem]
    exact ⟨h.incident_of_over fit he, hall t⟩

/-- an edge has one image when its triangles are in one fan at both ends -/
theorem sole_image_of_sameFan (he : e < m.edges.size)
    (hfan : ∀ v, m.IsEnd e v → ∀ t u, m.Incident e t → m.Incident e u → m.SameFan v t u) :
    ∃ e', (∀ e'', m.Over c e'' e ↔ e'' = e') ∧
      c.mesh.edgeTriangles[e']? = m.edgeTriangles[e]? := by
  have fit := coh.toFitted
  obtain ⟨t, ht⟩ := coh.exists_incident he
  obtain ⟨e', he', ht'⟩ := h.exists_image fit ht
  refine ⟨e', h.sole_image coh he' fun u hu => ?_⟩
  refine (h.incident_iff_of_image fit he' ht' hu).mpr fun v hv => ?_
  exact h.separated.cornerIn_eq_of_sameFan fit (fit.isCorner_of_incident ht hv) (hfan v hv t u ht hu)

theorem plain_image (he : m.IsPlain e) : ∃ e', (∀ e'', m.Over c e'' e ↔ e'' = e') ∧
    c.mesh.IsPlain e' ∧ c.mesh.edgeTriangles[e']? = m.edgeTriangles[e]? := by
  obtain ⟨e', hover, hlist⟩ := h.sole_image_of_sameFan coh he.lt_size fun v hv t u ht hu =>
    Beside.sameFan ⟨e, he, hv, ht, hu⟩
  exact ⟨e', hover, (h.isPlain_iff_of_over coh ((hover e').mpr rfl)).mpr he, hlist⟩

theorem dual_iff : c.mesh.Dual t u ↔ m.Dual t u := by
  have fit := coh.toFitted
  refine ⟨?_, ?_⟩
  · intro ⟨e', hplain, ht, hu⟩
    obtain ⟨e, he⟩ := h.exists_over fit hplain.lt_size
    exact ⟨e, (h.isPlain_iff_of_over coh he).mp hplain, h.incident_of_over fit he ht,
      h.incident_of_over fit he hu⟩
  · intro ⟨e, hplain, ht, hu⟩
    obtain ⟨e', _, hplain', hlist⟩ := h.plain_image coh hplain
    unfold Incident at ht hu
    rw [← hlist] at ht hu
    exact ⟨e', hplain', ht, hu⟩

/-- the two images of a feature edge between different fans -/
theorem two_images (he : m.IsFeature e) (hts : m.edgeTriangles[e]? = some [t, u])
    (hv : m.IsEnd e v) (hfan : ¬ m.SameFan v t u) :
    ∃ e₁ e₂, e₁ ≠ e₂ ∧ (∀ e', m.Over c e' e ↔ e' = e₁ ∨ e' = e₂) ∧
      c.mesh.edgeTriangles[e₁]? = some [t] ∧ c.mesh.edgeTriangles[e₂]? = some [u] := by
  have fit := coh.toFitted
  have hmem : ∀ w, m.Incident e w ↔ w = t ∨ w = u := by
    intro w
    rw [incident_iff_mem hts]
    simp
  have ht : m.Incident e t := (hmem t).mpr (.inl rfl)
  have hu : m.Incident e u := (hmem u).mpr (.inr rfl)
  obtain ⟨e₁, he₁, ht₁⟩ := h.exists_image fit ht
  obtain ⟨e₂, he₂, hu₂⟩ := h.exists_image fit hu
  -- both triangles have their corner at `v` moved, to different vertices
  have hapart : m.cornerIn s.triangles t v ≠ m.cornerIn s.triangles u v := fun hsame =>
    hfan (h.separated.apart (h.seen he ht hv) (h.seen he hu hv) hsame)
  have hu₁ : ¬ c.mesh.Incident e₁ u := fun hu₁ =>
    hapart ((h.incident_iff_of_image fit he₁ ht₁ hu).mp hu₁ v hv)
  have ht₂ : ¬ c.mesh.Incident e₂ t := fun ht₂ =>
    hapart ((h.incident_iff_of_image fit he₂ hu₂ ht).mp ht₂ v hv).symm
  refine ⟨e₁, e₂, ?_, fun e' => ⟨fun he' => ?_, fun he' => ?_⟩, ?_, ?_⟩
  · intro heq
    subst heq
    exact hu₁ hu₂
  · obtain ⟨w, hw⟩ := h.coherent.exists_incident he'.lt_size
    rcases (hmem w).mp (h.incident_of_over fit he' hw) with rfl | rfl
    · exact .inl (h.image_unique fit he' hw he₁ ht₁)
    · exact .inr (h.image_unique fit he' hw he₂ hu₂)
  · rcases he' with rfl | rfl
    · exact he₁
    · exact he₂
  · refine h.coherent.edgeTriangles_eq he₁.lt_size (List.pairwise_singleton _ _) fun w => ?_
    rw [List.mem_singleton]
    refine ⟨?_, ?_⟩
    · intro hw
      refine ((hmem w).mp (h.incident_of_over fit he₁ hw)).resolve_right ?_
      intro heq
      subst heq
      exact hu₁ hw
    · intro heq
      subst heq
      exact ht₁
  · refine h.coherent.edgeTriangles_eq he₂.lt_size (List.pairwise_singleton _ _) fun w => ?_
    rw [List.mem_singleton]
    refine ⟨?_, ?_⟩
    · intro hw
      refine ((hmem w).mp (h.incident_of_over fit he₂ hw)).resolve_left ?_
      intro heq
      subst heq
      exact ht₂ hw
    · intro heq
      subst heq
      exact hu₂

end Cut

/-! ## the whole cut -/

theorem Cut.cutTopology {m : Mesh α} {c : FeatureCut α} {s : Separation} (h : Cut m c s)
    (coh : m.Coherent) : CutTopology m c where
  valid := h.coherent.upToDate.isValid
  image := by
    intro e' he'
    obtain ⟨e, he⟩ := h.exists_over coh.toFitted he'
    exact ⟨e, he, fun e₂ he₂ => over_unique coh.toFitted he₂ he⟩
  onto := by
    intro e he
    obtain ⟨t, ht⟩ := coh.exists_incident he
    obtain ⟨e', he', _⟩ := h.exists_image coh.toFitted ht
    exact ⟨e', he'⟩
  plain := fun e he => h.plain_image coh he
  dual := fun t u => h.dual_iff coh
  boundary := by
    intro e t he hts
    have hfan : ∀ v, m.IsEnd e v → ∀ t u, m.Incident e t → m.Incident e u → m.SameFan v t u := by
      intro v _ t' u' ht' hu'
      rw [incident_iff_mem hts, List.mem_singleton] at ht' hu'
      rw [ht', hu']
      exact .refl
    obtain ⟨e', hover, hlist⟩ := h.sole_image_of_sameFan coh he.lt_size hfan
    exact ⟨e', hover, hlist.trans hts⟩
  split := fun e t u he hts ⟨v, hv, hfan⟩ => h.two_images coh he hts hv hfan
  whole := by
    intro e t u he hts hsame
    have hfan : ∀ v, m.IsEnd e v → ∀ t u, m.Incident e t → m.Incident e u → m.SameFan v t u := by
      intro v hv t' u' ht' hu'
      rw [incident_iff_mem hts] at ht' hu'
      simp only [List.mem_cons, List.not_mem_nil, or_false] at ht' hu'
      rcases ht' with rfl | rfl
      · rcases hu' with rfl | rfl
        · exact .refl
        · exact hsame v hv
      · rcases hu' with rfl | rfl
        · exact (hsame v hv).symm
        · exact .refl
    obtain ⟨e', hover, hlist⟩ := h.sole_image_of_sameFan coh he.lt_size hfan
    exact ⟨e', hover, hlist.trans hts⟩
  feature := fun e' e he hover =>
    (h.feature_of_over coh hover ((h.isFeature_iff_of_over coh hover).mpr he)).2
  line := fun i line hline => h.line hline
  line_lt := fun e => (h.coherent.feature e).symm.trans (h.line_lt e)
  featureEdges := h.coherent.feature
  featureEdgesAt := h.coherent.starred.featureEdgesAt
  featureVertices := by
    intro v
    rw [h.coherent.starred.mem_featureVertices]
    simp only [h.coherent.feature]

/-- the cut of a mesh that the library gives completes, with edges lying over edges as said -/
theorem cutAlongFeatures_topology [Scalar α] {m : Mesh α} (h : Obtained m) :
    ∃ c, m.cutAlongFeatures = .ok c ∧ CutTopology m c := by
  obtain ⟨c, s, hok, hcut⟩ := h.cut
  exact ⟨c, hok, hcut.cutTopology h.coherent⟩

theorem topology_threeTriangles : ∃ m, threeTriangles.result = .ok m ∧
    ∃ c, m.cutAlongFeatures = .ok c ∧ CutTopology m c := by
  obtain ⟨m, hm, _⟩ := threeTriangles_ok
  exact ⟨m, hm, cutAlongFeatures_topology (.ofTriangles hm)⟩

end Mesh
end DiskCut
