import DiskCut.Proofs.Mesh.Checks
import DiskCut.Proofs.Mesh.Survivors

/-!
# Where updates and derivations stop

The sides and the lines alone tell it, whatever edges a mesh has.

* `ThirdUse keys k`       `k` is the first pair to stand in `keys` for the third time
* `StopsWith x cause`     an edit stops and reports `cause`
* `Kept.updateEdges_sides`   an update of the edges completes, or stops on the third use of a side
* `deriveTopology_sides`  so does a derivation, which also stops on the first line that is no side
-/

namespace DiskCut
open Std

/-! ## third uses -/

/-- `k` is the first pair that stands in the list `keys` for the third time -/
def ThirdUse (keys : List (VertexId × VertexId)) (k : VertexId × VertexId) : Prop :=
  ∃ before after, keys = before ++ k :: after ∧ before.count k = 2 ∧ ∀ k', before.count k' ≤ 2

section
variable {keys : List (VertexId × VertexId)} {k k' : VertexId × VertexId}

/-- neither of two third uses has another one before it -/
theorem ThirdUse.unique (h : ThirdUse keys k) (h' : ThirdUse keys k') : k = k' := by
  obtain ⟨before, after, rfl, full, few⟩ := h
  obtain ⟨before', after', heq, full', few'⟩ := h'
  rcases place_cases heq with ⟨_, hk⟩ | ⟨mid, rfl⟩ | ⟨mid, rfl⟩
  · exact hk
  · have hle := few' k
    rw [List.count_append, List.count_cons_self, full] at hle
    omega
  · have hle := few k'
    rw [List.count_append, List.count_cons_self, full'] at hle
    omega

theorem ThirdUse.two_lt_count (h : ThirdUse keys k) : 2 < keys.count k := by
  obtain ⟨before, after, rfl, full, _⟩ := h
  rw [List.count_append, List.count_cons_self, full]
  omega

end

namespace Mesh
variable {α : Type} {m m' : Mesh α}

/-! ## edits that stop -/

/-- the edit stops and reports `cause` -/
def StopsWith (x : Except (Interrupted α) (Mesh α)) (cause : MeshError) : Prop :=
  ∃ stopped, x = .error stopped ∧ stopped.fault = .mesh cause

section
variable {x : Except (Interrupted α) (Mesh α)} {cause cause' : MeshError}

theorem StopsWith.unique (h : StopsWith x cause) (h' : StopsWith x cause') : cause = cause' := by
  obtain ⟨stopped, rfl, hfault⟩ := h
  obtain ⟨_, hstop, hfault'⟩ := h'
  obtain rfl := Except.error.inj hstop
  exact Fault.mesh.inj (hfault.symm.trans hfault')

theorem not_stopsWith_of_ok (hok : x = .ok m) : ¬ StopsWith x cause := by
  rintro ⟨_, hstop, _⟩
  rw [hok] at hstop
  cases hstop

/-- an edit that reports a third use reports no other one -/
theorem StopsWith.iff_thirdUse {keys : List (VertexId × VertexId)} {k : VertexId × VertexId}
    (h : StopsWith x (.nonManifoldEdge k.1 k.2)) (hk : ThirdUse keys k) (u v : VertexId) :
    StopsWith x (.nonManifoldEdge u v) ↔ ThirdUse keys (u, v) := by
  refine ⟨fun h' => ?_, fun h' => ?_⟩
  · obtain ⟨rfl, rfl⟩ := MeshError.nonManifoldEdge.inj (h.unique h')
    exact hk
  · obtain rfl := hk.unique h'
    exact h

end

/-! ## updates and derivations -/

/-- the third triangle of a pair, told by the sides alone -/
theorem thirdUse_of_sideList {before after : List ((VertexId × VertexId) × TriangleId)}
    {k : VertexId × VertexId} {t : TriangleId} (hside : m.sideList = before ++ (k, t) :: after)
    (full : (owners before k).length = 2) (few : ∀ k', (owners before k').length ≤ 2) :
    ThirdUse (sideScan m.triangles.toList) k := by
  simp only [length_owners] at full few
  refine ⟨before.map Prod.fst, after.map Prod.fst, ?_, full, few⟩
  rw [← map_fst_sideList, hside, List.map_append, List.map_cons]

theorem not_thirdUse_of_few (few : ∀ k, (m.trianglesOn k).length ≤ 2) (k : VertexId × VertexId) :
    ¬ ThirdUse (sideScan m.triangles.toList) k := by
  intro h
  have hlt := h.two_lt_count
  have hle := few k
  rw [trianglesOn, length_owners, map_fst_sideList] at hle
  omega

variable [Scalar α]

/-- lines that were marked are sides -/
theorem Rebuilt.sides (h : Rebuilt m m') {line : Line} (hline : line ∈ m.lines.toList) :
    IsSide m.triangles.toList line := by
  rw [← lines_of_given h.given_eq] at hline
  obtain ⟨e, he⟩ := h.covers line hline
  have hpair := h.tabled.mem_pairs.mpr ⟨e, he⟩
  rw [h.pairs_eq, List.mem_eraseDups, map_fst_sideList] at hpair
  exact mem_sideScan.mp hpair

/-- an update completes, or stops on a third use -/
theorem Kept.updateEdges_sides (h : m.Kept) :
    (∃ m', m.updateEdges = .ok m' ∧ Refreshed m m') ∨
    ∃ k, ThirdUse (sideScan m.triangles.toList) k ∧
      StopsWith m.updateEdges (.nonManifoldEdge k.1 k.2) := by
  obtain ⟨_, _, hseen⟩ := h.traced
  rcases updateEdges_outcome hseen.tabled h.marks with
    ⟨m', hok⟩ | ⟨stopped, before, k, t, after, hstop, hside, full, few, hfault⟩
  · exact .inl ⟨m', hok, h.refreshed hok⟩
  · exact .inr ⟨k, thirdUse_of_sideList hside full few, stopped, hstop, hfault⟩

theorem Kept.updateEdges_stops_iff (h : m.Kept) (u v : VertexId) :
    StopsWith m.updateEdges (.nonManifoldEdge u v) ↔
      ThirdUse (sideScan m.triangles.toList) (u, v) := by
  rcases h.updateEdges_sides with ⟨m', hok, hnew⟩ | ⟨k, hk, hstop⟩
  · exact iff_of_false (not_stopsWith_of_ok hok) (not_thirdUse_of_few hnew.few _)
  · exact hstop.iff_thirdUse hk u v

section
variable (corner_lt : ∀ {t : TriangleId} {vs}, m.triangles[t]? = some vs →
  ∀ j, vs.get j < m.vertices.size)
include corner_lt

/-- a derivation completes, or stops on a third use, or else on the first line that is no side -/
theorem deriveTopology_sides :
    (∃ m', m.deriveTopology = .ok m' ∧ Rebuilt m m') ∨
    (∃ k, ThirdUse (sideScan m.triangles.toList) k ∧
      StopsWith m.deriveTopology (.nonManifoldEdge k.1 k.2)) ∨
    ∃ i line, (∀ k, (m.trianglesOn k).length ≤ 2) ∧
      FirstWithout (IsSide m.triangles.toList) m.lines.toList i line ∧
      StopsWith m.deriveTopology (.featureEdgeNotFound line.ends.1 line.ends.2) := by
  have side : ∀ line : Line, IsSide m.triangles.toList line ↔
      m.trianglesOn (edgeKey line.ends.1 line.ends.2) ≠ [] := fun _ => trianglesOn_ne_nil.symm
  rcases deriveTopology_outcome corner_lt with hok |
    ⟨stopped, before, k, t, after, hstop, hside, full, few, hfault⟩ |
    ⟨stopped, before, line, after, hstop, few, hsplit, hbefore, hno, hfault⟩
  · exact .inl hok
  · exact .inr (.inl ⟨k, thirdUse_of_sideList hside full few, stopped, hstop, hfault⟩)
  · refine .inr (.inr ⟨before.length, line, few, ⟨before, after, hsplit, rfl, fun l hl => ?_, ?_⟩,
      stopped, hstop, hfault⟩)
    · exact (side l).mpr (hbefore l hl)
    · exact fun hline => (side line).mp hline hno

theorem deriveTopology_stops_iff (u v : VertexId) :
    StopsWith m.deriveTopology (.nonManifoldEdge u v) ↔
      ThirdUse (sideScan m.triangles.toList) (u, v) := by
  rcases deriveTopology_sides corner_lt with ⟨m', hok, hnew⟩ | ⟨k, hk, hstop⟩ |
    ⟨i, line, few, _, hstop⟩
  · exact iff_of_false (not_stopsWith_of_ok hok) (not_thirdUse_of_few hnew.few _)
  · exact hstop.iff_thirdUse hk u v
  · exact iff_of_false (fun h => nomatch hstop.unique h) (not_thirdUse_of_few few _)

/-- without a third use the lines alone decide -/
theorem deriveTopology_of_few (few : ∀ k, (m.trianglesOn k).length ≤ 2) :
    (∃ m', m.deriveTopology = .ok m' ∧ Rebuilt m m') ∨
    ∃ i line, FirstWithout (IsSide m.triangles.toList) m.lines.toList i line ∧
      StopsWith m.deriveTopology (.featureEdgeNotFound line.ends.1 line.ends.2) := by
  rcases deriveTopology_sides corner_lt with hok | ⟨k, hk, _⟩ | ⟨i, line, _, hfirst, hstop⟩
  · exact .inl hok
  · exact absurd hk (not_thirdUse_of_few few k)
  · exact .inr ⟨i, line, hfirst, hstop⟩

end
end Mesh
end DiskCut
