import DiskCut.CutGraph
import DiskCut.Proofs.Mesh.Features
import Mathlib.Data.List.Induction

/-!
# Leaves of a cut graph

* `getElem?_tally`     the number kept for a vertex is the number of times that it was counted
* `CutGraph.IsLeaf`    a vertex at exactly one edge of the graph
* `CutGraph.leaves_ok` the leaves are these vertices, in increasing order
-/

namespace DiskCut
open Std

namespace CutGraph
variable {α : Type}

/-- vertex `v` is at exactly one edge of the graph -/
def IsLeaf (g : CutGraph) (m : Mesh α) (v : VertexId) : Prop :=
  ∃ e ∈ g.edges, m.IsEnd e v ∧ ∀ d ∈ g.edges, m.IsEnd d v → d = e

/-! ## counting -/

theorem getElem?_countAt (degrees : ExtTreeMap VertexId Nat) (w v : VertexId) :
    (countAt degrees w)[v]? = if w = v then some (degrees[v]?.getD 0 + 1) else degrees[v]? := by
  unfold countAt
  rw [ExtTreeMap.getElem?_insert]
  simp only [Nat.compare_eq_eq]
  split
  · rename_i h
    rw [h, ExtTreeMap.getD_eq_getD_getElem?]
  · rfl

/-- the number kept for a vertex is the number of times that it was counted -/
theorem getElem?_tally (vs : List VertexId) (v : VertexId) :
    (vs.foldl countAt ∅)[v]? = if vs.count v = 0 then none else some (vs.count v) := by
  induction vs using List.reverseRecOn with
  | nil => rw [List.foldl_nil, ExtTreeMap.getElem?_empty, List.count_nil, if_pos rfl]
  | append_singleton vs w ih =>
    rw [List.foldl_append, List.foldl_cons, List.foldl_nil, List.count_append,
      List.count_singleton, getElem?_countAt, ih]
    by_cases hwv : w = v
    · rw [if_pos hwv, if_pos (beq_iff_eq.mpr hwv), if_neg (Nat.succ_ne_zero _)]
      by_cases hzero : vs.count v = 0
      · rw [if_pos hzero, hzero]
        rfl
      · rw [if_neg hzero]
        rfl
    · rw [if_neg hwv, if_neg (mt beq_iff_eq.mp hwv), Nat.add_zero]

/-- an end of an edge with different ends is counted once for it -/
theorem count_ends {β : Type} (xs : List β) (ends : β → VertexId × VertexId) (v : VertexId)
    (hne : ∀ x ∈ xs, (ends x).1 ≠ (ends x).2) :
    ((xs.map ends).flatMap fun k => [k.1, k.2]).count v
      = xs.countP fun x => (ends x).1 == v || (ends x).2 == v := by
  induction xs with
  | nil => rfl
  | cons x xs ih =>
    rw [List.map_cons, List.flatMap_cons, List.count_append,
      ih fun y hy => hne y (List.mem_cons_of_mem _ hy), List.countP_cons, List.count_cons,
      List.count_singleton]
    have hx := hne x List.mem_cons_self
    by_cases h₁ : (ends x).1 = v
    · have h₂ : (ends x).2 ≠ v := fun h₂ => hx (h₁.trans h₂.symm)
      simp [h₁, h₂, Nat.add_comm]
    · simp [h₁, Nat.add_comm]

theorem countP_eq_one_iff {β : Type} {xs : List β} (hnodup : xs.Nodup) {p : β → Bool} :
    xs.countP p = 1 ↔ ∃ x ∈ xs, p x = true ∧ ∀ y ∈ xs, p y = true → y = x := by
  rw [List.countP_eq_length_filter, List.length_eq_one_iff]
  refine ⟨?_, ?_⟩
  · intro ⟨x, hx⟩
    have hmem : ∀ y, y ∈ xs ∧ p y = true ↔ y = x := by
      intro y
      rw [← List.mem_filter, hx, List.mem_singleton]
    obtain ⟨hx, hp⟩ := (hmem x).mpr rfl
    exact ⟨x, hx, hp, fun y hy hpy => (hmem y).mp ⟨hy, hpy⟩⟩
  · intro ⟨x, hx, hp, honly⟩
    refine ⟨x, List.perm_singleton.mp ?_⟩
    refine (List.perm_ext_iff_of_nodup (hnodup.filter _) (List.nodup_singleton x)).mpr fun y => ?_
    rw [List.mem_filter, List.mem_singleton]
    refine ⟨fun hy => honly y hy.1 hy.2, ?_⟩
    rintro rfl
    exact ⟨hx, hp⟩

/-! ## leaves -/

section
variable {g : CutGraph} {m : Mesh α}

/-- the pairs of the edges of a graph -/
theorem vertexPairs_ok (hlt : ∀ e ∈ g.edges, e < m.edges.size) :
    g.vertexPairs m = .ok (g.edges.toList.map fun e => (m.edges[e]?.map (·.ends)).getD (0, 0)) := by
  unfold vertexPairs
  rw [mapM_eq_ok_iff, List.forall₂_map_right_iff, List.forall₂_same]
  intro e he
  have hlt := hlt e (ExtTreeSet.mem_toList.mp he)
  unfold Mesh.edge
  rw [fetch_of_lt hlt, Array.getElem?_eq_getElem hlt]
  rfl

/-- the leaves of a graph are the vertices with exactly one of its edges, in increasing order -/
theorem leaves_ok (hne : ∀ {e : EdgeId} {x : Edge α}, m.edges[e]? = some x → x.ends.1 ≠ x.ends.2)
    (hlt : ∀ e ∈ g.edges, e < m.edges.size) :
    ∃ vs, g.leaves m = .ok vs ∧ vs.Pairwise (· < ·) ∧ ∀ v, v ∈ vs ↔ g.IsLeaf m v := by
  let ends : EdgeId → VertexId × VertexId := fun e => (m.edges[e]?.map (·.ends)).getD (0, 0)
  let tally := ((g.edges.toList.map ends).flatMap fun k => [k.1, k.2]).foldl countAt ∅
  refine ⟨(tally.toList.filter (·.2 == 1)).map Prod.fst, ?_, ?_, fun v => ?_⟩
  · unfold leaves degrees
    rw [vertexPairs_ok hlt]
    rfl
  · have hsorted : (tally.toList.map Prod.fst).Pairwise (· < ·) := by
      rw [ExtTreeMap.map_fst_toList_eq_keys]
      exact tally.ordered_keys.imp Nat.compare_eq_lt.mp
    exact hsorted.sublist (List.filter_sublist.map _)
  · have hends : ∀ e ∈ g.edges, ((ends e).1 == v || (ends e).2 == v) = true ↔ m.IsEnd e v := by
      intro e he
      have hx := Array.getElem?_eq_getElem (hlt e he)
      unfold Mesh.IsEnd
      simp [ends, hx]
    have hdistinct : ∀ e ∈ g.edges.toList, (ends e).1 ≠ (ends e).2 := by
      intro e he
      have hx := Array.getElem?_eq_getElem (hlt e (ExtTreeSet.mem_toList.mp he))
      simp only [ends, hx, Option.map_some, Option.getD_some]
      exact hne hx
    have hnodup : g.edges.toList.Nodup := nodup_toList g.edges
    have hcount := getElem?_tally ((g.edges.toList.map ends).flatMap fun k => [k.1, k.2]) v
    rw [count_ends _ _ _ hdistinct] at hcount
    have hone : v ∈ (tally.toList.filter (·.2 == 1)).map Prod.fst ↔ tally[v]? = some 1 := by
      rw [List.mem_map]
      refine ⟨?_, ?_⟩
      · rintro ⟨⟨w, n⟩, hx, rfl⟩
        obtain ⟨hmem, hn⟩ := List.mem_filter.mp hx
        obtain rfl : n = 1 := by simpa using hn
        exact ExtTreeMap.mem_toList_iff_getElem?_eq_some.mp hmem
      · intro hv
        exact ⟨(v, 1), List.mem_filter.mpr
          ⟨ExtTreeMap.mem_toList_iff_getElem?_eq_some.mpr hv, rfl⟩, rfl⟩
    have hiff : tally[v]? = some 1 ↔
        g.edges.toList.countP (fun e => (ends e).1 == v || (ends e).2 == v) = 1 := by
      rw [hcount]
      split
      · rename_i hzero
        rw [hzero]
        simp
      · rw [Option.some.injEq]
    rw [hone, hiff, countP_eq_one_iff hnodup]
    unfold IsLeaf
    simp only [ExtTreeSet.mem_toList]
    refine exists_congr fun e => and_congr_right fun he => and_congr (hends e he) ?_
    exact forall₂_congr fun d hd => imp_congr_left (hends d hd)

end
end CutGraph
end DiskCut
