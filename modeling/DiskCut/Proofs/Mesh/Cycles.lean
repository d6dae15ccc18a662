import DiskCut.Proofs.Mesh.Sound
import Mathlib.Algebra.Field.ZMod
import Mathlib.LinearAlgebra.Dimension.FreeAndStrongRankCondition
import Mathlib.LinearAlgebra.FiniteDimensional.Lemmas
import Mathlib.LinearAlgebra.Finsupp.LinearCombination

/-!
# Independent cycles

A set of edges is a cycle when every vertex is an end of an even number of them.  Sets of edges are
chains with coefficients modulo two, so that cycles form a space, with a dimension.

* `endsChain m e`      the two ends of an edge
* `boundary m B`       the ends of the edges of a chain on `B`, summed
* `mem_ker_boundary_iff`   a chain without boundary is a cycle
* `cycleRank m B`      the dimension of the cycles on `B`
* `cycleRank_add`      connected edges have one cycle more than they outnumber their vertices

The boundaries on a connected set of edges have an even number of vertices, and all such chains
arise: together with a single vertex they give all chains of vertices.
-/

namespace DiskCut
namespace Mesh
variable {α : Type} {m : Mesh α}

/-- the two ends of an edge -/
noncomputable def endsChain (m : Mesh α) (e : EdgeId) : VertexId →₀ ZMod 2 :=
  match m.edges[e]? with
  | some x => .single x.ends.1 1 + .single x.ends.2 1
  | none => 0

/-- the ends of the edges of a chain, summed -/
noncomputable def boundary (m : Mesh α) (B : Finset EdgeId) :
    (B →₀ ZMod 2) →ₗ[ZMod 2] (VertexId →₀ ZMod 2) :=
  Finsupp.linearCombination (ZMod 2) fun e : B => m.endsChain e

/-- the number of independent cycles of a set of edges -/
noncomputable def cycleRank (m : Mesh α) (B : Finset EdgeId) : Nat :=
  Module.finrank (ZMod 2) (LinearMap.ker (m.boundary B))

section
variable {B : Finset EdgeId} {V : Finset VertexId} {e : EdgeId} {a b v w : VertexId}

theorem Joins.endsChain (h : m.Joins e a b) :
    m.endsChain e = Finsupp.single a 1 + Finsupp.single b 1 := by
  obtain ⟨x, hx, hends⟩ := h
  unfold Mesh.endsChain
  rw [hx]
  show Finsupp.single x.ends.1 1 + Finsupp.single x.ends.2 1 = _
  rw [hends]
  rcases edgeKey_cases a b with hk | hk
  · rw [hk]
  · rw [hk, add_comm]

theorem range_boundary (m : Mesh α) (B : Finset EdgeId) :
    LinearMap.range (m.boundary B) = Submodule.span (ZMod 2) (m.endsChain '' B) := by
  unfold boundary
  rw [Finsupp.range_linearCombination, Set.image_eq_range]
  rfl

theorem Joins.endsChain_apply (h : m.Joins e a b) (hne : a ≠ b) (v : VertexId)
    [Decidable (m.IsEnd e v)] : m.endsChain e v = if m.IsEnd e v then 1 else 0 := by
  rw [h.endsChain, Finsupp.add_apply, Finsupp.single_apply, Finsupp.single_apply]
  by_cases hva : a = v
  · rw [if_pos hva, if_neg fun hvb => hne (hva.trans hvb.symm), if_pos (hva ▸ h.isEnd_left),
      add_zero]
  · rw [if_neg hva, zero_add]
    refine if_congr ?_ rfl rfl
    rw [h.isEnd_iff]
    exact ⟨fun hvb => .inr hvb.symm, fun hv => (hv.resolve_left (Ne.symm hva)).symm⟩

open Classical in
/-- a chain is a cycle when every vertex is an end of an even number of its edges -/
theorem mem_ker_boundary_iff (hB : ∀ e ∈ B, ∃ a b, m.Joins e a b ∧ a ≠ b) {c : B →₀ ZMod 2} :
    c ∈ LinearMap.ker (m.boundary B) ↔
      ∀ v, Even (c.support.filter fun e : B => m.IsEnd e v).card := by
  have hvalue : ∀ v,
      m.boundary B c v = ((c.support.filter fun e : B => m.IsEnd e v).card : ZMod 2) := by
    intro v
    unfold boundary
    rw [Finsupp.linearCombination_apply, Finsupp.sum, Finsupp.finsetSum_apply,
      Finset.card_filter, Nat.cast_sum]
    refine Finset.sum_congr rfl fun e he => ?_
    obtain ⟨a, b, hjoin, hne⟩ := hB e e.2
    have hone : c e = 1 := by
      have hnot := Finsupp.mem_support_iff.mp he
      revert hnot
      generalize c e = k
      decide +revert
    rw [Finsupp.smul_apply, hone, one_smul, hjoin.endsChain_apply hne]
    push_cast
    rfl
  rw [LinearMap.mem_ker, Finsupp.ext_iff]
  refine forall_congr' fun v => ?_
  rw [hvalue, Finsupp.zero_apply, ZMod.natCast_eq_zero_iff_even]

/-! ## boundaries are even -/

/-- the sum of the coefficients of a chain -/
noncomputable def total : (VertexId →₀ ZMod 2) →ₗ[ZMod 2] ZMod 2 :=
  Finsupp.linearCombination (ZMod 2) fun _ => 1

theorem total_single (v : VertexId) : total (.single v 1) = 1 := by
  simp [total]

theorem Joins.total_endsChain (h : m.Joins e a b) : total (m.endsChain e) = 0 := by
  rw [h.endsChain, map_add, total_single, total_single]
  decide

/-- a single vertex is no boundary -/
theorem disjoint_single (hB : ∀ e ∈ B, ∃ a b, m.Joins e a b) (v : VertexId) :
    Disjoint (LinearMap.range (m.boundary B)) (Submodule.span (ZMod 2) {Finsupp.single v 1}) := by
  rw [Submodule.disjoint_def]
  intro c hc hv
  obtain ⟨k, rfl⟩ := Submodule.mem_span_singleton.mp hv
  have heven : LinearMap.range (m.boundary B) ≤ LinearMap.ker total := by
    rw [range_boundary, Submodule.span_le]
    rintro _ ⟨e, he, rfl⟩
    obtain ⟨a, b, hjoin⟩ := hB e he
    exact hjoin.total_endsChain
  have hk : total (k • Finsupp.single v 1) = 0 := heven hc
  rw [map_smul, total_single, smul_eq_mul, mul_one] at hk
  rw [hk, zero_smul]

/-! ## all even chains are boundaries -/

/-- the ends of a walk are the boundary of its edges, but for the first -/
theorem single_of_walk (hwalk : m.Walk (· ∈ B) v w) :
    Finsupp.single w 1 ∈ LinearMap.range (m.boundary B) ⊔
      Submodule.span (ZMod 2) {Finsupp.single v (1 : ZMod 2)} := by
  induction hwalk with
  | refl => exact Submodule.mem_sup_right (Submodule.mem_span_singleton_self _)
  | @tail b c _ hstep ih =>
    obtain ⟨e, he, hjoin⟩ := hstep
    have hedge : m.endsChain e ∈ LinearMap.range (m.boundary B) ⊔
        Submodule.span (ZMod 2) {Finsupp.single v (1 : ZMod 2)} := by
      refine Submodule.mem_sup_left ?_
      rw [range_boundary]
      exact Submodule.subset_span ⟨e, he, rfl⟩
    have hc : Finsupp.single c (1 : ZMod 2) = m.endsChain e + Finsupp.single b 1 := by
      rw [hjoin.endsChain, add_comm (Finsupp.single b 1), add_assoc, ← Finsupp.single_add,
        show (1 + 1 : ZMod 2) = 0 by decide, Finsupp.single_zero, add_zero]
    rw [hc]
    exact Submodule.add_mem _ hedge ih

variable (hB : ∀ e ∈ B, ∃ a ∈ V, ∃ b ∈ V, m.Joins e a b)
  (hV : ∀ v ∈ V, ∀ w ∈ V, m.Walk (· ∈ B) v w)
include hB hV

/-- boundaries and a single vertex give all chains of vertices -/
theorem range_boundary_sup (hv : v ∈ V) : LinearMap.range (m.boundary B) ⊔
    Submodule.span (ZMod 2) {Finsupp.single v 1} = Finsupp.supported (ZMod 2) (ZMod 2) V := by
  apply le_antisymm
  · rw [range_boundary, sup_le_iff, Submodule.span_le, Submodule.span_le]
    refine ⟨?_, ?_⟩
    · rintro _ ⟨e, he, rfl⟩
      obtain ⟨a, ha, b, hb, hjoin⟩ := hB e he
      rw [hjoin.endsChain]
      exact Submodule.add_mem _ (Finsupp.single_mem_supported _ 1 ha)
        (Finsupp.single_mem_supported _ 1 hb)
    · rintro _ rfl
      exact Finsupp.single_mem_supported _ 1 hv
  · rw [Finsupp.supported_eq_span_single, Submodule.span_le]
    rintro _ ⟨w, hw, rfl⟩
    exact single_of_walk (hV v hv w hw)

/-- connected edges have one cycle more than they outnumber their vertices -/
theorem cycleRank_add (hne : V.Nonempty) : m.cycleRank B + V.card = B.card + 1 := by
  obtain ⟨v, hv⟩ := hne
  have hrank := (m.boundary B).finrank_range_add_finrank_ker
  rw [Module.finrank_finsupp_self, Fintype.card_coe] at hrank
  have hdisjoint := disjoint_single (fun e he =>
    let ⟨a, _, b, _, hjoin⟩ := hB e he
    ⟨a, b, hjoin⟩) v
  have hsum := Submodule.finrank_sup_add_finrank_inf_eq (LinearMap.range (m.boundary B))
    (Submodule.span (ZMod 2) {Finsupp.single v (1 : ZMod 2)})
  rw [hdisjoint.eq_bot, finrank_bot, range_boundary_sup hB hV hv,
    (Finsupp.supportedEquivFinsupp (V : Set VertexId)).finrank_eq, Module.finrank_finsupp_self,
    finrank_span_singleton (by simp)] at hsum
  simp only [SetLike.coe_sort_coe, Fintype.card_coe, add_zero] at hsum
  unfold cycleRank
  omega

end
end Mesh
end DiskCut
