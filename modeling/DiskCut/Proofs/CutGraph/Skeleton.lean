import DiskCut.Proofs.Completion
import Mathlib.Combinatorics.SimpleGraph.Acyclic

/-!
# Edges as a graph on the used vertices

* `skeleton m E`           the graph of the edges that satisfy `E`, on the vertices of triangles
* `Coherent.skeleton_adj`  two vertices are adjacent when such an edge joins them
* `Coherent.reachable_of_walk`   a walk on the mesh is one in the graph
* `LiesOn m e p`           edge `e` is on the walk `p`
* `Coherent.card_edgeSet`  the graph of a set of edges has as many edges
* `card_used`              and as many vertices as the mesh uses
-/

namespace DiskCut
open Std
namespace Mesh
variable {α : Type}

/-- the graph of the edges that satisfy `E`, on the vertices of triangles -/
def skeleton (m : Mesh α) (E : EdgeId → Prop) : SimpleGraph {v // m.IsUsed v} where
  Adj v w := v ≠ w ∧ m.Along E v w
  symm := ⟨fun _ _ h => ⟨h.1.symm, Std.Symm.symm _ _ h.2⟩⟩
  loopless := ⟨fun _ h => h.1 rfl⟩

/-- edge `e` is on the walk `p` -/
def LiesOn (m : Mesh α) (e : EdgeId) {E : EdgeId → Prop} {v w : {v // m.IsUsed v}}
    (p : (m.skeleton E).Walk v w) : Prop :=
  ∃ a b : {v // m.IsUsed v}, m.Joins e a b ∧ s(a, b) ∈ p.edges

section
variable {m : Mesh α} {E F : EdgeId → Prop} {e d : EdgeId} {v w : VertexId}

theorem skeleton_mono (h : ∀ e, E e → F e) : m.skeleton E ≤ m.skeleton F :=
  fun _ _ ⟨hne, e, he, hjoin⟩ => ⟨hne, e, h e he, hjoin⟩

theorem Joins.eq_or_eq (h : m.Joins e v w) {a b : VertexId} (h' : m.Joins e a b) :
    a = v ∧ b = w ∨ a = w ∧ b = v := by
  obtain ⟨x, hx, hends⟩ := h
  obtain ⟨y, hy, hends'⟩ := h'
  rw [hx] at hy
  obtain rfl := Option.some.inj hy
  exact edgeKey_eq_iff.mp (hends'.symm.trans hends)

variable (coh : m.Coherent)
include coh

theorem Coherent.isUsed_of_isEnd (hv : m.IsEnd e v) : m.IsUsed v := by
  obtain ⟨t, ht⟩ := coh.exists_incident hv.lt_size
  exact ⟨t, coh.isCorner_of_incident ht hv⟩

theorem Coherent.ne_of_joins (h : m.Joins e v w) : v ≠ w := by
  obtain ⟨t, ht⟩ := coh.exists_incident h.isEnd_left.lt_size
  exact coh.toFitted.ne_of_joins ht h

/-- two vertices are adjacent when an edge joins them -/
theorem Coherent.skeleton_adj {v w : {v // m.IsUsed v}} :
    (m.skeleton E).Adj v w ↔ ∃ e, E e ∧ m.Joins e v w := by
  refine ⟨fun h => h.2, fun h => ⟨?_, h⟩⟩
  obtain ⟨e, _, hjoin⟩ := h
  exact fun heq => coh.ne_of_joins hjoin (congrArg Subtype.val heq)

/-- an edge joins two used vertices -/
theorem Coherent.exists_joins (he : e < m.edges.size) :
    ∃ a b : {v // m.IsUsed v}, m.Joins e a b := by
  have hx := Array.getElem?_eq_getElem he
  have hjoin : m.Joins e _ _ := ⟨_, hx, (coh.tabled.edgeKey_ends hx).symm⟩
  exact ⟨⟨_, coh.isUsed_of_isEnd hjoin.isEnd_left⟩, ⟨_, coh.isUsed_of_isEnd hjoin.isEnd_right⟩, hjoin⟩

theorem Coherent.exists_across {v : {v // m.IsUsed v}} (hv : m.IsEnd e v) :
    ∃ w : {v // m.IsUsed v}, m.Joins e v w := by
  obtain ⟨a, b, hjoin⟩ := coh.exists_joins hv.lt_size
  rcases hjoin.isEnd_iff.mp hv with heq | heq
  · exact ⟨b, heq ▸ hjoin⟩
  · exact ⟨a, heq ▸ hjoin.symm⟩

/-- an edge alone joins its ends -/
theorem Coherent.adj_iff {a b : {v // m.IsUsed v}} (hjoin : m.Joins e a b) :
    (m.skeleton E).Adj a b ↔ E e := by
  rw [coh.skeleton_adj]
  refine ⟨?_, fun he => ⟨e, he, hjoin⟩⟩
  intro ⟨d, hd, hjoin'⟩
  rwa [coh.eq_of_joins hjoin hjoin']

/-- a walk on the mesh is one in the graph -/
theorem Coherent.reachable_of_walk (h : m.Walk E v w) (hv : m.IsUsed v) (hw : m.IsUsed w) :
    (m.skeleton E).Reachable ⟨v, hv⟩ ⟨w, hw⟩ := by
  induction h with
  | refl => exact .refl _
  | @tail b c _ hstep ih =>
    obtain ⟨e, he, hjoin⟩ := hstep
    have hb := coh.isUsed_of_isEnd hjoin.isEnd_left
    have hadj : (m.skeleton E).Adj ⟨b, hb⟩ ⟨c, hw⟩ := coh.skeleton_adj.mpr ⟨e, he, hjoin⟩
    exact (ih hb).trans hadj.reachable

omit coh in
/-- one edge joins two vertices only, so it lies on the walk just when these follow each other -/
theorem liesOn_iff {v w a b : {v // m.IsUsed v}} {p : (m.skeleton E).Walk v w}
    (hjoin : m.Joins e a b) : m.LiesOn e p ↔ s(a, b) ∈ p.edges := by
  refine ⟨?_, fun h => ⟨a, b, hjoin, h⟩⟩
  intro ⟨c, d, hcd, hmem⟩
  rcases hjoin.eq_or_eq hcd with ⟨hc, hd⟩ | ⟨hc, hd⟩
  · rwa [Subtype.ext hc, Subtype.ext hd] at hmem
  · rwa [Subtype.ext hc, Subtype.ext hd, Sym2.eq_swap] at hmem

end

/-! ## counting -/

theorem card_subtype_of_list {β : Type} {P : β → Prop} {xs : List β} (hnodup : xs.Nodup)
    (h : ∀ x, P x ↔ x ∈ xs) : Nat.card {x // P x} = xs.length := by
  classical
  rw [Nat.subtype_card xs.toFinset fun x => by rw [List.mem_toFinset, h],
    List.toFinset_card_of_nodup hnodup]

theorem card_used (m : Mesh α) : Nat.card {v // m.IsUsed v} = m.usedVertices.size := by
  rw [card_subtype_of_list (nodup_toList m.usedVertices) fun v => by
    rw [ExtTreeSet.mem_toList, mem_usedVertices], ExtTreeSet.length_toList]

theorem Fitted.finite_used {m : Mesh α} (fit : m.Fitted) : Finite {v // m.IsUsed v} :=
  Set.Finite.to_subtype ((Set.finite_lt_nat m.vertices.size).subset fun _ hv => fit.lt_of_isUsed hv)

/-- the graph of a set of edges has as many edges -/
theorem Coherent.card_edgeSet {m : Mesh α} (coh : m.Coherent) {K : ExtTreeSet EdgeId}
    (hK : ∀ e ∈ K, e < m.edges.size) : Nat.card (m.skeleton (· ∈ K)).edgeSet = K.size := by
  have hends : ∀ e : {e // e ∈ K}, ∃ s ∈ (m.skeleton (· ∈ K)).edgeSet, ∃ a b : {v // m.IsUsed v},
      s = s(a, b) ∧ m.Joins e a b := by
    intro ⟨e, he⟩
    obtain ⟨a, b, hjoin⟩ := coh.exists_joins (hK e he)
    exact ⟨s(a, b), (coh.adj_iff hjoin).mpr he, a, b, rfl, hjoin⟩
  choose f hf hjoins using hends
  have hbij : Function.Bijective fun e => (⟨f e, hf e⟩ : (m.skeleton (· ∈ K)).edgeSet) := by
    refine ⟨fun e d hed => ?_, fun ⟨s, hs⟩ => ?_⟩
    · obtain ⟨a, b, hab, hjoin⟩ := hjoins e
      obtain ⟨a', b', hab', hjoin'⟩ := hjoins d
      have heq : s(a, b) = s(a', b') := by
        rw [← hab, ← hab']
        exact congrArg Subtype.val hed
      rcases Sym2.eq_iff.mp heq with ⟨rfl, rfl⟩ | ⟨rfl, rfl⟩
      · exact Subtype.ext (coh.eq_of_joins hjoin hjoin')
      · exact Subtype.ext (coh.eq_of_joins hjoin hjoin'.symm)
    · induction s using Sym2.ind with
      | _ a b =>
        obtain ⟨e, he, hjoin⟩ := coh.skeleton_adj.mp hs
        refine ⟨⟨e, he⟩, Subtype.ext ?_⟩
        obtain ⟨a', b', hab', hjoin'⟩ := hjoins ⟨e, he⟩
        show f ⟨e, he⟩ = s(a, b)
        rw [hab', Sym2.eq_iff]
        rcases hjoin.eq_or_eq hjoin' with ⟨h₁, h₂⟩ | ⟨h₁, h₂⟩
        · exact .inl ⟨Subtype.ext h₁, Subtype.ext h₂⟩
        · exact .inr ⟨Subtype.ext h₁, Subtype.ext h₂⟩
  rw [← Nat.card_congr (Equiv.ofBijective _ hbij), card_subtype_of_list (nodup_toList K) fun e => by
    rw [ExtTreeSet.mem_toList], ExtTreeSet.length_toList]

end Mesh
end DiskCut
