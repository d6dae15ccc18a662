import DiskCut.FeatureCut
import DiskCut.Proofs.Mesh.Sound

/-!
# Fans

Around a vertex the triangles fall into fans: two triangles are in one fan when plain edges at the
vertex lead from one to the other.

* `Beside m v t u`    triangles `t` and `u` share a plain edge at `v`
* `SameFan m v t u`   they are in one fan at `v`
* `HasRay m v t`      triangle `t` has a feature edge at `v`
* `cornerIn m corners t v`   where a list of corners has the corner of `t` at `v`

`beside_iff` finds the triangles beside `t` across the two edges of `t` at its corner, which is how
a walk through a fan goes on.
-/

namespace DiskCut
namespace Mesh
variable {α : Type} {m : Mesh α} {e : EdgeId} {t u w : TriangleId} {v : VertexId}

/-! ## fans -/

def Beside (m : Mesh α) (v : VertexId) (t u : TriangleId) : Prop :=
  ∃ e, m.IsPlain e ∧ m.IsEnd e v ∧ m.Incident e t ∧ m.Incident e u

def SameFan (m : Mesh α) (v : VertexId) : TriangleId → TriangleId → Prop :=
  Relation.ReflTransGen (m.Beside v)

def HasRay (m : Mesh α) (v : VertexId) (t : TriangleId) : Prop :=
  ∃ e, m.IsFeature e ∧ m.IsEnd e v ∧ m.Incident e t

theorem Beside.symm (h : m.Beside v t u) : m.Beside v u t := by
  obtain ⟨e, hplain, hend, ht, hu⟩ := h
  exact ⟨e, hplain, hend, hu, ht⟩

theorem SameFan.refl : m.SameFan v t t := Relation.ReflTransGen.refl

theorem SameFan.trans (h : m.SameFan v t u) (h' : m.SameFan v u w) : m.SameFan v t w :=
  Relation.ReflTransGen.trans h h'

instance beside_symm : Std.Symm (m.Beside v) := ⟨fun _ _ => Beside.symm⟩

theorem SameFan.symm (h : m.SameFan v t u) : m.SameFan v u t :=
  Relation.ReflTransGen.stdSymm.symm t u h

theorem Beside.sameFan (h : m.Beside v t u) : m.SameFan v t u := Relation.ReflTransGen.single h

theorem Fitted.isCorner_of_beside (h : m.Fitted) (htu : m.Beside v t u) : m.IsCorner u v := by
  obtain ⟨e, _, hend, _, hu⟩ := htu
  exact h.isCorner_of_incident hu hend

theorem Fitted.isCorner_of_sameFan (h : m.Fitted) (ht : m.IsCorner t v) (htu : m.SameFan v t u) :
    m.IsCorner u v := by
  induction htu with
  | refl => exact ht
  | tail _ hstep _ => exact h.isCorner_of_beside hstep

theorem Fitted.isCorner_of_hasRay (h : m.Fitted) (ht : m.HasRay v t) : m.IsCorner t v := by
  obtain ⟨e, _, hend, ht⟩ := ht
  exact h.isCorner_of_incident ht hend

/-- what is closed under going on beside holds a fan as soon as it holds one of its triangles -/
theorem SameFan.mem_of_closed {P : TriangleId → Prop} (closed : ∀ t u, P t → m.Beside v t u → P u)
    (h : m.SameFan v t u) (ht : P t) : P u := by
  induction h with
  | refl => exact ht
  | tail _ hstep ih => exact closed _ _ ih hstep

/-! ## the triangles beside one -/

/-- the edges of a triangle at its corner `k` are its sides number `k` and `k + 2` -/
theorem Fitted.mem_sides_at_corner (h : m.Fitted) {vs : Triple VertexId} {es : Triple EdgeId}
    (hvs : m.triangles[t]? = some vs) (hes : m.triangleEdges[t]? = some es) (k : Fin 3) :
    e ∈ [es.get k, es.get (k + 2)] ↔ m.IsEnd e (vs.get k) ∧ m.Incident e t := by
  refine ⟨?_, ?_⟩
  · intro he
    simp only [List.mem_cons, List.not_mem_nil, or_false] at he
    rcases he with rfl | rfl
    · exact ⟨(h.joins_side hvs hes k).isEnd_left, h.incident_side hvs hes k⟩
    · refine ⟨?_, h.incident_side hvs hes (k + 2)⟩
      have hjoin := (h.joins_side hvs hes (k + 2)).isEnd_right
      rw [Triple.add_two_succ] at hjoin
      exact hjoin
  · intro ⟨hend, ht⟩
    obtain ⟨x, vs', hx, hvs', j, hj⟩ := h.incident_iff.mp ht
    rw [hvs] at hvs'
    obtain rfl := Option.some.inj hvs'
    obtain ⟨y, hy, hend⟩ := hend
    rw [hx] at hy
    obtain rfl := Option.some.inj hy
    have hes' := h.side_eq hvs hes j
    rw [hj, h.tabled.index_of_edge hx] at hes'
    obtain rfl := Option.some.inj hes'
    rw [← hj] at hend
    rcases Triple.side_at_corner (h.proper hvs) hend with rfl | rfl
    · simp
    · simp

theorem Fitted.beside_iff (h : m.Fitted) {vs : Triple VertexId} {es : Triple EdgeId}
    (hvs : m.triangles[t]? = some vs) (hes : m.triangleEdges[t]? = some es) {k : Fin 3} :
    m.Beside (vs.get k) t u ↔ ∃ e ∈ [es.get k, es.get (k + 2)], m.IsPlain e ∧ m.Incident e u := by
  refine ⟨?_, ?_⟩
  · intro ⟨e, hplain, hend, ht, hu⟩
    exact ⟨e, (h.mem_sides_at_corner hvs hes k).mpr ⟨hend, ht⟩, hplain, hu⟩
  · intro ⟨e, he, hplain, hu⟩
    obtain ⟨hend, ht⟩ := (h.mem_sides_at_corner hvs hes k).mp he
    exact ⟨e, hplain, hend, ht, hu⟩

/-! ## corners that move -/

/-- the vertex that `corners` has where triangle `t` of `m` has `v` -/
def cornerIn (m : Mesh α) (corners : Array (Triple VertexId)) (t : TriangleId) (v : VertexId) :
    Option VertexId :=
  m.triangles[t]?.bind fun vs => (vs.place? v).bind fun k => corners[t]?.map (·.get k)

section
variable {corners : Array (Triple VertexId)} {vs ws : Triple VertexId} {k : Fin 3}

theorem cornerIn_of_place (hvs : m.triangles[t]? = some vs) (hk : vs.place? v = some k) :
    m.cornerIn corners t v = corners[t]?.map (·.get k) := by
  unfold cornerIn
  rw [hvs, Option.bind_some, hk, Option.bind_some]

theorem Proper.cornerIn_get (h : m.Proper) (hvs : m.triangles[t]? = some vs)
    (hws : corners[t]? = some ws) (k : Fin 3) :
    m.cornerIn corners t (vs.get k) = some (ws.get k) := by
  rw [cornerIn_of_place hvs (Triple.place?_get (h hvs) k), hws]
  rfl

theorem cornerIn_self (h : m.IsCorner t v) (proper : m.Proper) :
    m.cornerIn m.triangles t v = some v := by
  obtain ⟨vs, hvs, k, rfl⟩ := h
  exact proper.cornerIn_get hvs hvs k

theorem isCorner_of_cornerIn {w : VertexId} (h : m.cornerIn corners t v = some w) :
    m.IsCorner t v := by
  unfold cornerIn at h
  obtain ⟨vs, hvs, h⟩ := Option.bind_eq_some_iff.mp h
  obtain ⟨k, hk, _⟩ := Option.bind_eq_some_iff.mp h
  exact ⟨vs, hvs, k, Triple.get_of_place? hk⟩

/-- one corner of one triangle moved -/
theorem cornerIn_modify (hvs : m.triangles[t]? = some vs) (hk : vs.place? v = some k)
    (ht : t < corners.size) (target : VertexId) (u : TriangleId) (w : VertexId) :
    m.cornerIn (corners.modify t (·.set k target)) u w
      = if u = t ∧ w = v then some target else m.cornerIn corners u w := by
  by_cases htu : u = t
  · subst htu
    unfold cornerIn
    rw [hvs, Option.bind_some, Option.bind_some, Array.getElem?_modify, if_pos rfl,
      Array.getElem?_eq_getElem ht]
    simp only [Option.map_some, Triple.get_set, true_and]
    by_cases hwv : w = v
    · rw [hwv, hk, if_pos rfl, Option.bind_some, if_pos rfl]
    · rw [if_neg hwv]
      cases hj : vs.place? w with
      | none => rfl
      | some j =>
        have hne : j ≠ k := by
          intro heq
          subst heq
          exact hwv ((Triple.get_of_place? hj).symm.trans (Triple.get_of_place? hk))
        rw [Option.bind_some, Option.bind_some, if_neg hne]
  · have hne : ¬ (u = t ∧ w = v) := fun h => htu h.1
    have hne' : t ≠ u := fun h => htu h.symm
    unfold cornerIn
    rw [if_neg hne, Array.getElem?_modify, if_neg hne']

end
end Mesh
end DiskCut
