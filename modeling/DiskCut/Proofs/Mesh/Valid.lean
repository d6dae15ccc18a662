import DiskCut.Proofs.Mesh.Traced

/-!
# What the test of validity finds out

* `isSide_ends`, `hasSides_spec`, `isConsistentEdge_spec`   what a passed test says of one side, of
                      one triangle and of one edge
* `Triple.eq_of_sides`   the corners of a triangle are determined by the ends of its sides
* `Kept.upToDate`     a kept mesh that passes is up to date, whatever edits it has been through
* `Kept.isValid_iff`  so validity is being a fixed point of the update, without loops

The test reads for each triangle that the recorded sides have its corners as ends.  It does not read
that a triangle listed at an edge has a side there; this follows from how the lists have come about.
-/

namespace DiskCut
open Std

/-- a triangle whose corners are ends of the sides of another one is that one -/
theorem Triple.eq_of_sides {β : Type} {vs ws : Triple β} (distinct : ∀ j, ws.get j ≠ ws.get (j + 1))
    (left : ∀ j, vs.get j = ws.get j ∨ vs.get j = ws.get (j + 1))
    (right : ∀ j, vs.get (j + 1) = ws.get j ∨ vs.get (j + 1) = ws.get (j + 1)) : vs = ws := by
  have corner : ∀ j, vs.get (j + 1) = ws.get (j + 1) := by
    intro j
    rcases left (j + 1) with h | h
    · exact h
    · -- the third corner is no end of side `j`
      rcases right j with h' | h'
      · have hne := distinct (j + 1 + 1)
        rw [succ_succ_succ] at hne
        exact absurd (h.symm.trans h') hne
      · exact h'
  exact Triple.ext (corner 2) (corner 0) (corner 1)

namespace Mesh
variable {α : Type} {m m' : Mesh α} {t : TriangleId} {e : EdgeId} {a b : VertexId}

/-! ## what the tests read -/

theorem isSide_ends (h : m.isSide t e a b = true) : m.IsEnd e a ∧ m.IsEnd e b := by
  unfold isSide at h
  split at h
  · rename_i x ts hx hts
    simp only [Bool.and_eq_true, Edge.contains, Bool.or_eq_true, beq_iff_eq] at h
    exact ⟨⟨x, hx, h.1.1⟩, x, hx, h.1.2⟩
  · cases h

theorem hasSides_spec {vs : Triple VertexId} (h : m.hasSides (vs, t) = true) :
    ∃ es, m.triangleEdges[t]? = some es ∧
      ∀ j, m.IsEnd (es.get j) (vs.get j) ∧ m.IsEnd (es.get j) (vs.get (j + 1)) := by
  simp only [hasSides] at h
  split at h
  · rename_i es hes
    simp only [Bool.and_eq_true] at h
    refine ⟨es, hes, fun j => ?_⟩
    match j with
    | 0 => exact isSide_ends h.1.1
    | 1 => exact isSide_ends h.1.2
    | 2 => exact isSide_ends h.2
  · cases h

theorem isConsistentEdge_spec {x : Edge α} (h : m.isConsistentEdge (x, e) = true) :
    x.ends.1 < x.ends.2 ∧ (m.edgeTriangles[e]? ≠ some [] ∨ x.isFeature = true) := by
  unfold isConsistentEdge at h
  simp only [Bool.and_eq_true, Bool.or_eq_true, decide_eq_true_iff] at h
  refine ⟨h.1.1.1.1, h.2.imp (fun hpos hnil => ?_) id⟩
  rw [hnil] at hpos
  exact Nat.lt_irrefl 0 hpos

theorem isValid_spec (h : m.isValid = true) : m.triangleEdges.size = m.triangles.size ∧
    (∀ x ∈ m.numberedTriangles, m.hasSides x = true) ∧
    ∀ {e : EdgeId} {x : Edge α}, m.edges[e]? = some x → m.isConsistentEdge (x, e) = true := by
  unfold isValid at h
  simp only [Bool.and_eq_true, beq_iff_eq, List.all_eq_true] at h
  refine ⟨h.1.1.1.1, h.1.2, fun {e x} hx => h.2 (x, e) ?_⟩
  rw [List.mk_mem_zipIdx_iff_getElem?, Array.getElem?_toList]
  exact hx

/-! ## valid meshes are up to date -/

section
variable {seen : List (Triple VertexId × TriangleId)}
  {rest : List ((VertexId × VertexId) × TriangleId)}

/-- a recorded triangle that passes the test still has the corners with which it was recorded -/
theorem Traced.corners_eq (h : m.Traced seen rest)
    (ends_ne : ∀ {e : EdgeId} {x : Edge α}, m.edges[e]? = some x → x.ends.1 ≠ x.ends.2)
    {x : Triple VertexId × TriangleId} (hx : seen[t]? = some x) {vs : Triple VertexId}
    (hsides : m.hasSides (vs, t) = true) : x = (vs, t) := by
  obtain ⟨ws, t'⟩ := x
  obtain rfl : t' = t := h.numbered hx
  obtain ⟨es, hes, hside⟩ := h.sided.side hx
  obtain ⟨es', hes', hends⟩ := hasSides_spec hsides
  obtain rfl := Option.some.inj (hes.symm.trans hes')
  have hjoins : ∀ j, m.Joins (es.get j) (ws.get j) (ws.get (j + 1)) := by
    intro j
    obtain ⟨y, hy, hkey⟩ := h.tabled.edge_of_index (hside j)
    exact ⟨y, hy, by rw [hkey, Triple.get_keys]⟩
  have hne : ∀ j, ws.get j ≠ ws.get (j + 1) := by
    intro j heq
    obtain ⟨y, hy, hkey⟩ := hjoins j
    refine ends_ne hy ?_
    rw [hkey, ← heq, edgeKey_of_le (Nat.le_refl _)]
  have heq : vs = ws := Triple.eq_of_sides hne (fun j => (hjoins j).isEnd_iff.mp (hends j).1)
    fun j => (hjoins j).isEnd_iff.mp (hends j).2
  rw [heq]

/-- a valid mesh has recorded all its triangles as they are -/
theorem Traced.adjacent (h : m.Traced seen rest) (valid : m.isValid = true) : m.Adjacent := by
  obtain ⟨hsize, hsides, hedges⟩ := isValid_spec valid
  have ends_ne : ∀ {e : EdgeId} {x : Edge α}, m.edges[e]? = some x → x.ends.1 ≠ x.ends.2 :=
    fun hx => Nat.ne_of_lt (isConsistentEdge_spec (hedges hx)).1
  have hlen : seen.length = m.triangles.size := h.sided.size.symm.trans hsize
  have hrest : rest = [] := by
    refine List.eq_nil_iff_forall_not_mem.mpr fun p hp => ?_
    exact Nat.ne_of_lt (h.halted p hp).2 hlen
  have hseen : seen = m.numberedTriangles := by
    refine List.ext_getElem? fun i => ?_
    by_cases hi : i < m.triangles.size
    · have hx := List.getElem?_eq_getElem (hlen ▸ hi : i < seen.length)
      have hvs := Array.getElem?_eq_getElem hi
      rw [hx, h.corners_eq ends_ne hx (hsides _ (mem_numberedTriangles.mpr hvs))]
      exact (getElem?_numberedTriangles.mpr ⟨hvs, rfl⟩).symm
    · rw [List.getElem?_eq_none (by omega),
        List.getElem?_eq_none (by rw [length_numberedTriangles]; omega)]
  subst hseen hrest
  exact {
    size := hsize
    side := fun {t vs} hvs =>
      h.sided.side (x := (vs, t)) (getElem?_numberedTriangles.mpr ⟨hvs, rfl⟩)
    present := by
      intro e x hx
      have hpresent := h.present hx
      rw [List.append_nil] at hpresent
      exact hpresent
    few := by
      intro k
      have hfew := h.few k
      rw [List.append_nil] at hfew
      exact hfew }

end

/-- a kept mesh that passes the test is up to date -/
theorem Kept.upToDate (h : m.Kept) (valid : m.isValid = true) : m.UpToDate := by
  obtain ⟨seen, rest, hseen⟩ := h.traced
  have hadj := hseen.adjacent valid
  obtain ⟨_, _, hedges⟩ := isValid_spec valid
  exact {
    tabled := hseen.tabled
    adjacent := hadj
    feature := h.marks.feature
    used := by
      intro e x hx
      rcases (isConsistentEdge_spec (hedges hx)).2 with hne | hf
      · rw [hadj.present hx] at hne
        exact .inr fun hnil => hne (congrArg some hnil)
      · exact .inl hf
    ends_ne := fun hx => Nat.ne_of_lt (isConsistentEdge_spec (hedges hx)).1 }

/-! ## meshes that an update leaves alone -/

section
variable [Scalar α]

/-- a kept mesh is valid just when no edge joins a vertex to itself and an update of the edges
completes and leaves every field as it is -/
theorem Kept.isValid_iff (h : m.Kept) : m.isValid = true ↔
    (∀ (e : EdgeId) (x : Edge α), m.edges[e]? = some x → x.ends.1 ≠ x.ends.2) ∧
      m.updateEdges = .ok m := by
  refine ⟨fun valid => ?_, fun ⟨ends_ne, hok⟩ => ?_⟩
  · have hup := h.upToDate valid
    exact ⟨fun _ _ hx => hup.ends_ne hx, hup.tabled.updateEdges_self hup.adjacent hup.used⟩
  · obtain ⟨_, _, hseen⟩ := h.traced
    rcases updateEdges_cases hseen.tabled h.marks with
      ⟨last, hlast, hrenewed⟩ | ⟨_, _, _, _, hstop, _⟩
    · obtain rfl := Except.ok.inj (hok.symm.trans hlast)
      exact UpToDate.isValid ⟨hrenewed.tabled, hrenewed.adjacent, hrenewed.marks.feature,
        hrenewed.used, fun hx => ends_ne _ _ hx⟩
    · rw [hok] at hstop
      cases hstop

end
end Mesh
end DiskCut
