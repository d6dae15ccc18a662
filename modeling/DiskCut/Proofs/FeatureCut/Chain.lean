import DiskCut.Proofs.FeatureCut.Fan
import Mathlib.Data.Finset.Max
import Mathlib.Data.Finset.Powerset

/-!
# A fan has two ends

A triangle has two edges at each of its corners, and across a plain one there is at most one other
triangle.  So the triangles of a fan lie in a row, and the feature edges are at the ends of the row.

* `Spoke m v t e`       triangle `t` has edge `e` at `v`
* `Exits m S t e`       nothing leads from `t` across `e` into `S`
* `Strip m v S`         at most two spokes at `v` of the triangles `S` exit
* `Strip.lengthen`      a triangle beside a strip lengthens it
* `Fitted.exists_strip`   so there is a strip that holds a whole fan
* `Fitted.rays_of_fan`    and a fan has at most two spokes on feature edges
-/

namespace DiskCut
namespace Mesh
variable {α : Type} {m : Mesh α} {e : EdgeId} {t u : TriangleId} {v : VertexId}
  {S : Finset TriangleId}

/-- triangle `t` has edge `e` at `v` -/
def Spoke (m : Mesh α) (v : VertexId) (t : TriangleId) (e : EdgeId) : Prop :=
  m.IsEnd e v ∧ m.Incident e t

/-- edge `e` of triangle `t` is a feature, or there is no other of the triangles `S` across it -/
def Exits (m : Mesh α) (S : Finset TriangleId) (t : TriangleId) (e : EdgeId) : Prop :=
  m.IsFeature e ∨ ∀ u ∈ S, m.Incident e u → u = t

/-- triangles in a row around `v`: only at the two ends of the row a spoke exits -/
def Strip (m : Mesh α) (v : VertexId) (S : Finset TriangleId) : Prop :=
  ∃ p q : TriangleId × EdgeId, ∀ t ∈ S, ∀ e, m.Spoke v t e → m.Exits S t e →
    (t, e) = p ∨ (t, e) = q

/-! ## the spokes of one triangle -/

theorem Fitted.side_injective (h : m.Fitted) {vs : Triple VertexId} {es : Triple EdgeId}
    (hvs : m.triangles[t]? = some vs) (hes : m.triangleEdges[t]? = some es) {i j : Fin 3}
    (e : es.get i = es.get j) : i = j := by
  obtain ⟨x, hx, hi⟩ := h.tabled.edge_of_index (h.side_eq hvs hes i)
  obtain ⟨y, hy, hj⟩ := h.tabled.edge_of_index (h.side_eq hvs hes j)
  rw [e, hy] at hx
  rw [← Option.some.inj hx, hj] at hi
  exact Triple.keys_injective (h.proper hvs) hi.symm

/-- a triangle has two spokes at a corner -/
theorem Fitted.exists_spokes (h : m.Fitted) (ht : m.IsCorner t v) :
    ∃ e f, e ≠ f ∧ ∀ g, m.Spoke v t g ↔ g = e ∨ g = f := by
  obtain ⟨vs, hvs, k, rfl⟩ := ht
  obtain ⟨es, hes, _⟩ := h.adjacent.side hvs
  have hne : es.get k ≠ es.get (k + 2) := fun e =>
    Triple.ne_add_two k (h.side_injective hvs hes e)
  refine ⟨es.get k, es.get (k + 2), hne, fun g => ?_⟩
  unfold Spoke
  rw [← h.mem_sides_at_corner hvs hes k]
  simp

/-- so apart from a given spoke it has one -/
theorem Fitted.exists_other_spoke (h : m.Fitted) (he : m.Spoke v t e) :
    ∃ f, f ≠ e ∧ m.Spoke v t f ∧ ∀ g, m.Spoke v t g → g = e ∨ g = f := by
  obtain ⟨e₁, e₂, hne, hspokes⟩ := h.exists_spokes (h.isCorner_of_incident he.2 he.1)
  rcases (hspokes e).mp he with rfl | rfl
  · exact ⟨e₂, hne.symm, (hspokes e₂).mpr (.inr rfl), fun g hg => (hspokes g).mp hg⟩
  · exact ⟨e₁, hne, (hspokes e₁).mpr (.inl rfl), fun g hg => ((hspokes g).mp hg).symm⟩

/-! ## strips -/

theorem Fitted.strip_singleton (h : m.Fitted) (ht : m.IsCorner t v) : m.Strip v {t} := by
  obtain ⟨e, f, _, hspokes⟩ := h.exists_spokes ht
  refine ⟨(t, e), (t, f), fun u hu g hg _ => ?_⟩
  obtain rfl := Finset.mem_singleton.mp hu
  exact ((hspokes g).mp hg).imp (congrArg (Prod.mk u)) (congrArg (Prod.mk u))

/-- a triangle that is put beside the end of a strip is the new end -/
theorem Strip.lengthen (hs : m.Strip v S) (h : m.Fitted) (ht : t ∈ S) (hu : u ∉ S)
    (htu : m.Beside v t u) : m.Strip v (insert u S) := by
  obtain ⟨p, q, hends⟩ := hs
  obtain ⟨e, hplain, hend, hte, hue⟩ := htu
  have hne : t ≠ u := fun heq => hu (heq ▸ ht)
  obtain ⟨f, _, _, hother⟩ := h.exists_other_spoke ⟨hend, hue⟩
  have hold : (t, e) = p ∨ (t, e) = q := by
    refine hends t ht e ⟨hend, hte⟩ (.inr fun w hw hwe => ?_)
    rcases h.eq_or_eq_of_incident hte hue hne hwe with hwt | hwu
    · exact hwt
    · exact absurd (hwu ▸ hw) hu
  -- what exits now is the other spoke of `u`, or it exited before and is not between `t` and `u`
  have hnew : ∀ w ∈ insert u S, ∀ g, m.Spoke v w g → m.Exits (insert u S) w g →
      (w, g) = (u, f) ∨ ((w, g) = p ∨ (w, g) = q) ∧ (w, g) ≠ (t, e) := by
    intro w hw g hg hexit
    have hclosed : g ≠ e := by
      rintro rfl
      rcases hexit with hfeature | hsole
      · exact hplain.not_isFeature hfeature
      · have h₁ := hsole t (Finset.mem_insert_of_mem ht) hte
        have h₂ := hsole u (Finset.mem_insert_self u S) hue
        exact hne (h₁.trans h₂.symm)
    rcases Finset.mem_insert.mp hw with rfl | hw
    · exact .inl (congrArg _ ((hother g hg).resolve_left hclosed))
    · refine .inr ⟨hends w hw g hg ?_, fun heq => hclosed (congrArg Prod.snd heq)⟩
      exact hexit.imp_right fun hsole x hx => hsole x (Finset.mem_insert_of_mem hx)
  rcases hold with rfl | rfl
  · refine ⟨(u, f), q, fun w hw g hg hexit => ?_⟩
    exact (hnew w hw g hg hexit).imp_right fun hwg => hwg.1.resolve_left hwg.2
  · refine ⟨(u, f), p, fun w hw g hg hexit => ?_⟩
    exact (hnew w hw g hg hexit).imp_right fun hwg => hwg.1.resolve_right hwg.2

/-- a longest strip from a triangle holds the fan of the triangle -/
theorem Fitted.exists_strip (h : m.Fitted) (ht : m.IsCorner t v) :
    ∃ S, m.Strip v S ∧ ∀ u, m.SameFan v t u → u ∈ S := by
  classical
  let strips := (Finset.range m.triangles.size).powerset.filter fun S => t ∈ S ∧ m.Strip v S
  have hstrips : ∀ S, S ∈ strips ↔
      (∀ u ∈ S, u < m.triangles.size) ∧ t ∈ S ∧ m.Strip v S := by
    intro S
    rw [Finset.mem_filter, Finset.mem_powerset]
    simp only [Finset.subset_iff, Finset.mem_range]
  have hstart : {t} ∈ strips := by
    refine (hstrips {t}).mpr ⟨fun u hu => ?_, Finset.mem_singleton_self t, h.strip_singleton ht⟩
    exact Finset.mem_singleton.mp hu ▸ ht.lt_size
  obtain ⟨S, hS, hlongest⟩ := strips.exists_max_image Finset.card ⟨_, hstart⟩
  obtain ⟨hlt, htS, hstrip⟩ := (hstrips S).mp hS
  have closed : ∀ w u, w ∈ S → m.Beside v w u → u ∈ S := by
    intro w u hw hwu
    by_contra hu
    obtain ⟨e, _, _, _, hue⟩ := id hwu
    have hlonger : insert u S ∈ strips := by
      refine (hstrips _).mpr ⟨?_, Finset.mem_insert_of_mem htS, hstrip.lengthen h hw hu hwu⟩
      intro x hx
      rcases Finset.mem_insert.mp hx with rfl | hx
      · exact h.lt_of_incident hue
      · exact hlt x hx
    have hcard := hlongest _ hlonger
    rw [Finset.card_insert_of_notMem hu] at hcard
    omega
  exact ⟨S, hstrip, fun u htu => htu.mem_of_closed closed htS⟩

/-- a fan has at most two spokes on feature edges -/
theorem Fitted.rays_of_fan (h : m.Fitted) (ht : m.IsCorner t v) :
    ∃ p q : TriangleId × EdgeId, ∀ u e, m.SameFan v t u → m.IsFeature e → m.Spoke v u e →
      (u, e) = p ∨ (u, e) = q := by
  obtain ⟨S, ⟨p, q, hends⟩, hfan⟩ := h.exists_strip ht
  exact ⟨p, q, fun u e htu he hspoke => hends u (hfan u htu) e hspoke (.inl he)⟩

end Mesh
end DiskCut
