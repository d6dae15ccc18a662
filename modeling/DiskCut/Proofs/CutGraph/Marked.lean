import Mathlib.Combinatorics.SimpleGraph.Acyclic

/-!
# Marked forests

A forest in which no vertex outside the marked set has exactly one edge, inside a tree.

* `NoBareEnd G S`      every vertex with an edge is marked or has a second one
* `exists_path_to_marked`    so a path goes on until it meets a marked vertex
* `adj_iff_marked_path`      the edges of the forest are those of the paths of the tree between
                       marked vertices, when it joins these
* `exists_path_of_pair`      two marked vertices are joined by a path with all edges of the forest
* `isTree_induce`      with the marked vertices and the ends of its edges it is a tree
-/

namespace DiskCut
open SimpleGraph
variable {V : Type} {G T : SimpleGraph V} {S : Set V} {a b u v w : V}

/-- every vertex with an edge is marked or has a second edge -/
def NoBareEnd (G : SimpleGraph V) (S : Set V) : Prop :=
  ∀ v ∉ S, ∀ a, G.Adj v a → ∃ b, b ≠ a ∧ G.Adj v b

section
variable (hG : G.IsAcyclic) (hS : NoBareEnd G S)
include hG hS

/-- a path that does not end at a marked vertex can be made longer -/
theorem exists_longer_path {p : G.Walk u v} (hp : p.IsPath) (hnil : ¬ p.Nil) (hv : v ∉ S) :
    ∃ b, ∃ h : G.Adj v b, (p.concat h).IsPath := by
  have hlast := p.adj_penultimate hnil
  obtain ⟨b, hne, hadj⟩ := hS v hv p.penultimate hlast.symm
  refine ⟨b, hadj, hp.concat (fun hb => hne ?_) hadj⟩
  exact hG.eq_penultimate_of_adj_end hp hadj hb

/-- a path goes on until it meets a marked vertex -/
theorem exists_path_to_marked [Finite V] {p : G.Walk u v} (hp : p.IsPath) (hnil : ¬ p.Nil) :
    ∃ w ∈ S, ∃ q : G.Walk u w, q.IsPath ∧ ∀ e ∈ p.edges, e ∈ q.edges := by
  have _ := Fintype.ofFinite V
  -- on the number of vertices that the path leaves out
  induction hn : Fintype.card V - p.length using Nat.strong_induction_on generalizing v with
  | _ n ih =>
    by_cases hv : v ∈ S
    · exact ⟨v, hv, p, hp, fun _ he => he⟩
    · obtain ⟨b, hadj, hlong⟩ := exists_longer_path hG hS hp hnil hv
      have hlt := hlong.length_lt
      rw [Walk.length_concat] at hlt
      obtain ⟨w, hw, q, hq, hsub⟩ := ih (Fintype.card V - (p.concat hadj).length)
        (by rw [Walk.length_concat]; omega) hlong
        (by rw [Walk.not_nil_iff_lt_length, Walk.length_concat]; omega) rfl
      refine ⟨w, hw, q, hq, fun e he => hsub e ?_⟩
      rw [Walk.edges_concat, List.concat_eq_append]
      exact List.mem_append_left _ he

/-- every edge is on a path between marked vertices -/
theorem exists_marked_path [Finite V] (hab : G.Adj a b) :
    ∃ v ∈ S, ∃ w ∈ S, ∃ q : G.Walk v w, q.IsPath ∧ s(a, b) ∈ q.edges := by
  obtain ⟨w, hw, q, hq, hsub⟩ := exists_path_to_marked hG hS
    (p := Walk.cons hab .nil) (by simp [hab.ne]) Walk.not_nil_cons
  have hmem : s(a, b) ∈ q.edges := hsub _ (by simp)
  have hnil : ¬ q.reverse.Nil := by
    intro hnil
    rw [Walk.nil_reverse] at hnil
    rw [Walk.edges_eq_nil.mpr hnil] at hmem
    exact List.not_mem_nil hmem
  obtain ⟨v, hv, q', hq', hsub'⟩ := exists_path_to_marked hG hS hq.reverse hnil
  refine ⟨w, hw, v, hv, q', hq', hsub' _ ?_⟩
  rw [Walk.edges_reverse, List.mem_reverse]
  exact hmem

/-- two marked vertices that are joined are joined by a path with all edges -/
theorem exists_path_of_pair [Finite V] (hpair : ∀ x ∈ S, x = v ∨ x = w) (hvw : G.Reachable v w) :
    ∃ q : G.Walk v w, q.IsPath ∧ ∀ a b, G.Adj a b ↔ s(a, b) ∈ q.edges := by
  obtain ⟨q, hq⟩ := hvw.exists_isPath
  refine ⟨q, hq, fun a b => ⟨fun hab => ?_, fun hmem => Walk.adj_of_mem_edges q hmem⟩⟩
  obtain ⟨x, hx, y, hy, p, hp, hmem⟩ := exists_marked_path hG hS hab
  have hunique : ∀ p : G.Walk v w, p.IsPath → q = p := fun p hp =>
    congrArg Subtype.val ((hG.subsingleton_path v w).elim ⟨q, hq⟩ ⟨p, hp⟩)
  have hclosed : ∀ (u : V) (p : G.Walk u u), p.IsPath → s(a, b) ∉ p.edges := by
    intro u p hp hmem
    rw [Walk.edges_eq_nil.mpr (Walk.isPath_iff_nil.mp hp)] at hmem
    exact List.not_mem_nil hmem
  rcases hpair x hx with rfl | rfl <;> rcases hpair y hy with rfl | rfl
  · exact absurd hmem (hclosed _ p hp)
  · rwa [hunique p hp]
  · rw [hunique p.reverse hp.reverse, Walk.edges_reverse, List.mem_reverse]
    exact hmem
  · exact absurd hmem (hclosed _ p hp)

end

section
variable [Finite V] (hT : T.IsTree) (hle : G ≤ T) (hS : NoBareEnd G S)
  (hjoin : ∀ v ∈ S, ∀ w ∈ S, G.Reachable v w)
include hT hle hS hjoin

/-- a forest inside a tree that joins the marked vertices and has no bare end consists of the paths of
the tree between marked vertices -/
theorem adj_iff_marked_path : G.Adj a b ↔
    ∃ v ∈ S, ∃ w ∈ S, ∃ p : T.Walk v w, p.IsPath ∧ s(a, b) ∈ p.edges := by
  classical
  refine ⟨?_, ?_⟩
  · intro hab
    obtain ⟨v, hv, w, hw, q, hq, hmem⟩ := exists_marked_path (hT.isAcyclic.anti hle) hS hab
    exact ⟨v, hv, w, hw, q.mapLe hle, hq.mapLe hle, by rwa [Walk.edges_mapLe_eq_edges]⟩
  · intro ⟨v, hv, w, hw, p, hp, hmem⟩
    obtain ⟨q⟩ := hjoin v hv w hw
    -- the tree has no second path from `v` to `w`
    have hpq : p = q.toPath.val.mapLe hle :=
      (hT.existsUnique_path v w).unique hp (q.toPath.property.mapLe hle)
    rw [hpq, Walk.edges_mapLe_eq_edges] at hmem
    exact Walk.adj_of_mem_edges _ hmem

omit hjoin in
theorem reachable_marked (hab : G.Adj a b) : ∃ v ∈ S, G.Reachable v a := by
  classical
  obtain ⟨v, hv, w, _, q, _, hmem⟩ := exists_marked_path (hT.isAcyclic.anti hle) hS hab
  exact ⟨v, hv, ⟨q.takeUntil a (Walk.fst_mem_support_of_mem_edges q hmem)⟩⟩

omit [Finite V] hT hle hS hjoin in
/-- a set that the neighbours of its members belong to keeps its walks -/
theorem reachable_induce {X : Set V} (hclosed : ∀ v w, G.Adj v w → w ∈ X) (hv : v ∈ X) (hw : w ∈ X)
    (h : G.Reachable v w) : (G.induce X).Reachable ⟨v, hv⟩ ⟨w, hw⟩ := by
  obtain ⟨p⟩ := h
  induction p with
  | nil => exact .refl _
  | @cons a b c hab p ih =>
    have hb := hclosed a b hab
    have hadj : (G.induce X).Adj ⟨a, hv⟩ ⟨b, hb⟩ := hab
    exact hadj.reachable.trans (ih hb hw)

/-- the marked vertices with the ends of the edges are joined to a tree -/
theorem isTree_induce (hne : S.Nonempty) : (G.induce {v | v ∈ S ∨ ∃ w, G.Adj v w}).IsTree := by
  obtain ⟨s, hs⟩ := hne
  have hreach : ∀ v, (v ∈ S ∨ ∃ w, G.Adj v w) → G.Reachable s v := by
    rintro v (hv | ⟨w, hvw⟩)
    · exact hjoin s hs v hv
    · obtain ⟨u, hu, huv⟩ := reachable_marked hT hle hS hvw
      exact (hjoin s hs u hu).trans huv
  have hconn : (G.induce {v | v ∈ S ∨ ∃ w, G.Adj v w}).Connected := by
    rw [connected_iff_exists_forall_reachable]
    refine ⟨⟨s, .inl hs⟩, fun ⟨v, hv⟩ => ?_⟩
    exact reachable_induce (fun a b hab => .inr ⟨a, hab.symm⟩) (.inl hs) hv (hreach v hv)
  exact ⟨hconn, ((hT.isAcyclic.anti hle).induce _)⟩

end
end DiskCut
