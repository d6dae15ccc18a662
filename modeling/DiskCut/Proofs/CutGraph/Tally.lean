import DiskCut.CutGraph.Trim
import DiskCut.Proofs.Mesh.Sound
import Mathlib.Data.Finset.Card
import Mathlib.Data.Finset.Range

/-!
# Degrees and branches

What the arrays of a trimming say about a set of edges, and how they follow it.

* `degreeIn m D v`             the number of edges at `v` that satisfy `D`
* `Degrees m D extra degree`   `degree` counts them, with `extra` on top
* `Branching m R branches`     `branches` lists the edges that satisfy `R` at each of their ends
* `raise`, `lower`             an edge counted at both ends, or no more
* `attach`, `detach`           an edge listed at both ends, or no more
-/

namespace DiskCut
open Std
namespace Mesh
variable {α : Type}

theorem getElem?_modify_modify {β : Type} {xs : Array β} {a b : Nat} (hab : a ≠ b) (f g : β → β)
    (v : Nat) : ((xs.modify a f).modify b g)[v]?
      = if v = a then xs[v]?.map f else if v = b then xs[v]?.map g else xs[v]? := by
  rw [Array.getElem?_modify, Array.getElem?_modify]
  by_cases hva : v = a
  · rw [if_pos hva, if_pos hva.symm, if_neg fun h => hab (hva.symm.trans h.symm)]
  · rw [if_neg hva]
    by_cases hvb : v = b
    · rw [if_pos hvb, if_pos hvb.symm, if_neg fun h => hva h.symm]
    · rw [if_neg hvb, if_neg fun h => hvb h.symm, if_neg fun h => hva h.symm]

section
variable {m : Mesh α} {e : EdgeId} {a b v w : VertexId}

theorem Joins.eq_of_joins (h : m.Joins e a b) (h' : m.Joins e a w) : w = b := by
  obtain ⟨x, hx, hends⟩ := h
  obtain ⟨y, hy, hends'⟩ := h'
  rw [hx] at hy
  obtain rfl := Option.some.inj hy
  rcases edgeKey_eq_iff.mp (hends.symm.trans hends') with ⟨_, hb⟩ | ⟨ha, hb⟩
  · exact hb.symm
  · exact ha.symm.trans hb.symm

/-! ## degrees -/

open Classical in
noncomputable def degreeIn (m : Mesh α) (D : EdgeId → Prop) (v : VertexId) : Nat :=
  ((Finset.range m.edges.size).filter fun e => D e ∧ m.IsEnd e v).card

variable {D D' : EdgeId → Prop}

theorem degreeIn_eq_zero_iff : m.degreeIn D v = 0 ↔ ∀ e, D e → ¬ m.IsEnd e v := by
  classical
  unfold degreeIn
  rw [Finset.card_eq_zero, Finset.filter_eq_empty_iff]
  refine ⟨?_, ?_⟩
  · exact fun h e he hend => h (Finset.mem_range.mpr hend.lt_size) ⟨he, hend⟩
  · exact fun h e _ he => h e he.1 he.2

theorem degreeIn_of_not_isEnd (hD : ∀ d, D' d ↔ D d ∨ d = e) (hv : ¬ m.IsEnd e v) :
    m.degreeIn D' v = m.degreeIn D v := by
  classical
  unfold degreeIn
  congr 1
  refine Finset.filter_congr fun d _ => ?_
  rw [hD]
  refine ⟨?_, ?_⟩
  · rintro ⟨hd | rfl, hend⟩
    · exact ⟨hd, hend⟩
    · exact absurd hend hv
  · exact fun ⟨hd, hend⟩ => ⟨.inl hd, hend⟩

theorem degreeIn_of_isEnd (hD : ∀ d, D' d ↔ D d ∨ d = e) (hnew : ¬ D e) (hv : m.IsEnd e v) :
    m.degreeIn D' v = m.degreeIn D v + 1 := by
  classical
  have hnot : e ∉ (Finset.range m.edges.size).filter fun d => D d ∧ m.IsEnd d v := by
    rw [Finset.mem_filter]
    exact fun h => hnew h.2.1
  unfold degreeIn
  rw [← Finset.card_insert_of_notMem hnot]
  congr 1
  ext d
  rw [Finset.mem_insert, Finset.mem_filter, Finset.mem_filter, hD]
  refine ⟨?_, ?_⟩
  · rintro ⟨hlt, hd | rfl, hend⟩
    · exact .inr ⟨hlt, hd, hend⟩
    · exact .inl rfl
  · intro hcase
    rcases hcase with rfl | ⟨hlt, hd, hend⟩
    · exact ⟨Finset.mem_range.mpr hv.lt_size, .inr rfl, hv⟩
    · exact ⟨hlt, .inl hd, hend⟩

/-- a single edge at a vertex -/
theorem degreeIn_eq_one_iff : m.degreeIn D v = 1 ↔
    ∃ e, D e ∧ m.IsEnd e v ∧ ∀ d, D d → m.IsEnd d v → d = e := by
  classical
  unfold degreeIn
  rw [Finset.card_eq_one]
  refine ⟨?_, ?_⟩
  · intro ⟨e, he⟩
    have hmem : ∀ d, d ∈ ({e} : Finset EdgeId) ↔ d < m.edges.size ∧ D d ∧ m.IsEnd d v := by
      intro d
      rw [← he, Finset.mem_filter, Finset.mem_range]
    obtain ⟨_, hD, hend⟩ := (hmem e).mp (Finset.mem_singleton_self e)
    refine ⟨e, hD, hend, fun d hd hdv => ?_⟩
    exact Finset.mem_singleton.mp ((hmem d).mpr ⟨hdv.lt_size, hd, hdv⟩)
  · intro ⟨e, hD, hend, hall⟩
    refine ⟨e, ?_⟩
    ext d
    rw [Finset.mem_filter, Finset.mem_range, Finset.mem_singleton]
    refine ⟨?_, ?_⟩
    · exact fun h => hall d h.2.1 h.2.2
    · intro heq
      subst heq
      exact ⟨hend.lt_size, hD, hend⟩

structure Degrees (m : Mesh α) (D : EdgeId → Prop) (extra : VertexId → Nat) (degree : Array Nat) :
    Prop where
  size : degree.size = m.vertices.size
  count : ∀ v < m.vertices.size, degree[v]? = some (m.degreeIn D v + extra v)

variable {extra : VertexId → Nat} {degree : Array Nat}

/-- an edge counted at both ends -/
theorem Degrees.raise (hs : Degrees m D extra degree) (hD : ∀ d, D' d ↔ D d ∨ d = e) (hnew : ¬ D e)
    (hab : m.Joins e a b) (hne : a ≠ b) :
    Degrees m D' extra ((degree.modify a (· + 1)).modify b (· + 1)) := by
  refine ⟨by rw [Array.size_modify, Array.size_modify, hs.size], fun v hv => ?_⟩
  rw [getElem?_modify_modify hne, hs.count v hv]
  by_cases hend : m.IsEnd e v
  · have hdeg := degreeIn_of_isEnd hD hnew hend
    have hsum : m.degreeIn D v + extra v + 1 = m.degreeIn D' v + extra v := by omega
    split
    · exact congrArg some hsum
    · split
      · exact congrArg some hsum
      · rename_i hva hvb
        exact absurd (hab.isEnd_iff.mp hend) (not_or.mpr ⟨hva, hvb⟩)
  · rw [hab.isEnd_iff, not_or] at hend
    rw [if_neg hend.1, if_neg hend.2,
      degreeIn_of_not_isEnd hD fun h => not_or.mpr hend (hab.isEnd_iff.mp h)]

theorem lower_of_count {n : Nat} (hv : degree[v]? = some (n + 1)) :
    Trimming.lower degree v = .ok (degree.modify v fun _ => n) := by
  unfold Trimming.lower
  rw [bind_eq_ok_iff]
  refine ⟨n + 1, fetch_eq_ok_iff.mpr hv, bind_eq_ok_iff.mpr ⟨n, ?_, ?_⟩⟩
  · exact less_of_le (Nat.le_add_left 1 n)
  · exact alter_of_lt (Array.getElem?_eq_some_iff.mp hv).1

/-- an edge counted at both ends no more -/
theorem Degrees.lower (hs : Degrees m D extra degree) (hD : ∀ d, D d ↔ D' d ∨ d = e)
    (hgone : ¬ D' e) (hab : m.Joins e a b) (hne : a ≠ b) (ha : a < m.vertices.size)
    (hb : b < m.vertices.size) :
    ∃ once twice, Trimming.lower degree a = .ok once ∧ Trimming.lower once b = .ok twice ∧
      Degrees m D' extra twice := by
  have hcount : ∀ v, m.IsEnd e v → v < m.vertices.size →
      degree[v]? = some (m.degreeIn D' v + extra v + 1) := by
    intro v hend hv
    rw [hs.count v hv, degreeIn_of_isEnd hD hgone hend]
    congr 1
    omega
  have hca := hcount a hab.isEnd_left ha
  have hcb := hcount b hab.isEnd_right hb
  have honce := lower_of_count hca
  have hcb' : (degree.modify a fun _ => m.degreeIn D' a + extra a)[b]?
      = some (m.degreeIn D' b + extra b + 1) := by
    rw [Array.getElem?_modify, if_neg hne, hcb]
  refine ⟨_, _, honce, lower_of_count hcb', ?_, fun v hv => ?_⟩
  · rw [Array.size_modify, Array.size_modify, hs.size]
  · rw [getElem?_modify_modify hne]
    by_cases hva : v = a
    · rw [if_pos hva, hva, hca]
      rfl
    · rw [if_neg hva]
      by_cases hvb : v = b
      · rw [if_pos hvb, hvb, hcb]
        rfl
      · rw [if_neg hvb, hs.count v hv, degreeIn_of_not_isEnd hD]
        exact fun hend => not_or.mpr ⟨hva, hvb⟩ (hab.isEnd_iff.mp hend)

/-! ## branches -/

/-- the edges that satisfy `R` at `v`, each once and with its other end -/
structure BranchesAt (m : Mesh α) (R : EdgeId → Prop) (v : VertexId)
    (bs : List (VertexId × EdgeId)) : Prop where
  distinct : bs.Pairwise fun x y => x.2 ≠ y.2
  mem : ∀ w e, (w, e) ∈ bs ↔ R e ∧ m.Joins e v w

structure Branching (m : Mesh α) (R : EdgeId → Prop)
    (branches : Array (List (VertexId × EdgeId))) : Prop where
  size : branches.size = m.vertices.size
  at_vertex : ∀ v < m.vertices.size, ∃ bs, branches[v]? = some bs ∧ m.BranchesAt R v bs

variable {R R' : EdgeId → Prop} {bs : List (VertexId × EdgeId)}
  {branches : Array (List (VertexId × EdgeId))}

theorem BranchesAt.of_not_isEnd (hs : m.BranchesAt R v bs) (hv : ¬ m.IsEnd e v)
    (hR : ∀ d, d ≠ e → (R' d ↔ R d)) : m.BranchesAt R' v bs := by
  refine ⟨hs.distinct, fun w d => ?_⟩
  rw [hs.mem]
  refine and_congr_left fun hjoin => (hR d ?_).symm
  intro heq
  subst heq
  exact hv hjoin.isEnd_left

theorem BranchesAt.attach (hs : m.BranchesAt R a bs) (hR : ∀ d, R' d ↔ R d ∨ d = e) (hnew : ¬ R e)
    (hab : m.Joins e a b) : m.BranchesAt R' a (bs ++ [(b, e)]) := by
  refine ⟨?_, fun w d => ?_⟩
  · rw [List.pairwise_append]
    refine ⟨hs.distinct, List.pairwise_singleton _ _, fun x hx y hy => ?_⟩
    obtain rfl := List.mem_singleton.mp hy
    intro heq
    subst heq
    exact hnew ((hs.mem x.1 x.2).mp hx).1
  · rw [List.mem_append, hs.mem, List.mem_singleton, Prod.mk.injEq, hR]
    refine ⟨?_, ?_⟩
    · intro hcase
      rcases hcase with ⟨hd, hjoin⟩ | ⟨rfl, rfl⟩
      · exact ⟨.inl hd, hjoin⟩
      · exact ⟨.inr rfl, hab⟩
    · rintro ⟨hd | rfl, hjoin⟩
      · exact .inl ⟨hd, hjoin⟩
      · exact .inr ⟨hab.eq_of_joins hjoin, rfl⟩

/-- an edge listed at both ends -/
theorem Branching.attach (hs : Branching m R branches) (hR : ∀ d, R' d ↔ R d ∨ d = e)
    (hnew : ¬ R e) (hab : m.Joins e a b) (hne : a ≠ b) :
    Branching m R' ((branches.modify a (· ++ [(b, e)])).modify b (· ++ [(a, e)])) := by
  refine ⟨by rw [Array.size_modify, Array.size_modify, hs.size], fun v hv => ?_⟩
  obtain ⟨bs, hbs, hat⟩ := hs.at_vertex v hv
  rw [getElem?_modify_modify hne, hbs]
  by_cases hva : v = a
  · rw [if_pos hva]
    subst hva
    exact ⟨_, rfl, hat.attach hR hnew hab⟩
  · rw [if_neg hva]
    by_cases hvb : v = b
    · rw [if_pos hvb]
      subst hvb
      exact ⟨_, rfl, hat.attach hR hnew hab.symm⟩
    · rw [if_neg hvb]
      refine ⟨bs, rfl, hat.of_not_isEnd (e := e) ?_ fun d hd => ?_⟩
      · exact fun hend => not_or.mpr ⟨hva, hvb⟩ (hab.isEnd_iff.mp hend)
      · rw [hR, or_iff_left hd]

theorem BranchesAt.detach (hs : m.BranchesAt R v bs) (hR : ∀ d, R' d ↔ R d ∧ d ≠ e)
    {rest : List (VertexId × EdgeId)} (distinct : rest.Pairwise fun x y => x.2 ≠ y.2)
    (hrest : ∀ x, x ∈ rest ↔ x ∈ bs ∧ x.2 ≠ e) : m.BranchesAt R' v rest := by
  refine ⟨distinct, fun w d => ?_⟩
  rw [hrest, hs.mem, hR]
  tauto

theorem mem_dropLast_iff {x : VertexId × EdgeId} (hs : bs.Pairwise fun x y => x.2 ≠ y.2)
    (hlast : bs.getLast? = some (b, e)) : x ∈ bs.dropLast ↔ x ∈ bs ∧ x.2 ≠ e := by
  obtain ⟨init, rfl⟩ := List.getLast?_eq_some_iff.mp hlast
  rw [List.dropLast_concat, List.mem_append, List.mem_singleton]
  rw [List.pairwise_append] at hs
  refine ⟨?_, ?_⟩
  · exact fun hx => ⟨.inl hx, hs.2.2 x hx _ (List.mem_singleton_self _)⟩
  · rintro ⟨hx | rfl, hne⟩
    · exact hx
    · exact absurd rfl hne

theorem mem_eraseP_iff {x : VertexId × EdgeId} (hs : bs.Pairwise fun x y => x.2 ≠ y.2) :
    x ∈ bs.eraseP (·.2 == e) ↔ x ∈ bs ∧ x.2 ≠ e := by
  induction bs with
  | nil => simp
  | cons y bs ih =>
    rw [List.pairwise_cons] at hs
    by_cases hy : y.2 = e
    · rw [List.eraseP_cons_of_pos (by simp [hy]), List.mem_cons]
      refine ⟨?_, ?_⟩
      · intro hx
        refine ⟨.inr hx, ?_⟩
        rw [← hy]
        exact (hs.1 x hx).symm
      · rintro ⟨rfl | hx, hne⟩
        · exact absurd hy hne
        · exact hx
    · rw [List.eraseP_cons_of_neg (by simp [hy]), List.mem_cons, List.mem_cons, ih hs.2]
      refine ⟨?_, ?_⟩
      · intro hcase
        rcases hcase with rfl | hx
        · exact ⟨.inl rfl, hy⟩
        · exact ⟨.inr hx.1, hx.2⟩
      · rintro ⟨rfl | hx, hne⟩
        · exact .inl rfl
        · exact .inr ⟨hx, hne⟩

theorem swapRemove_perm {β : Type} {p : β → Bool} (xs : List β) :
    (Trimming.swapRemove p xs).Perm (xs.eraseP p) := by
  induction xs with
  | nil => exact .refl _
  | cons x xs ih =>
    unfold Trimming.swapRemove
    by_cases hx : p x = true
    · rw [if_pos hx, List.eraseP_cons_of_pos hx]
      cases hlast : xs.getLast? with
      | none => rw [List.getLast?_eq_none_iff.mp hlast]
      | some last =>
        obtain ⟨init, rfl⟩ := List.getLast?_eq_some_iff.mp hlast
        rw [List.dropLast_concat]
        exact (List.perm_append_singleton last init).symm
    · rw [if_neg hx, List.eraseP_cons_of_neg hx]
      exact ih.cons x

/-- the last edge at one end listed at both ends no more -/
theorem Branching.detach (hs : Branching m R branches) (hR : ∀ d, R' d ↔ R d ∧ d ≠ e)
    (hab : m.Joins e a b) (hne : a ≠ b) (hbs : branches[a]? = some bs)
    (hlast : bs.getLast? = some (b, e)) :
    Branching m R' ((branches.modify a (·.dropLast)).modify b (Trimming.swapRemove (·.2 == e))) := by
  refine ⟨by rw [Array.size_modify, Array.size_modify, hs.size], fun v hv => ?_⟩
  obtain ⟨cs, hcs, hat⟩ := hs.at_vertex v hv
  rw [getElem?_modify_modify hne, hcs]
  by_cases hva : v = a
  · rw [if_pos hva]
    subst hva
    rw [hcs] at hbs
    obtain rfl := Option.some.inj hbs
    exact ⟨_, rfl, hat.detach hR (hat.distinct.sublist (List.dropLast_sublist _))
      fun x => mem_dropLast_iff hat.distinct hlast⟩
  · rw [if_neg hva]
    by_cases hvb : v = b
    · rw [if_pos hvb]
      have hperm := swapRemove_perm (p := (·.2 == e)) cs
      have hdistinct := (hperm.pairwise_iff Ne.symm).mpr (hat.distinct.sublist List.eraseP_sublist)
      exact ⟨_, rfl, hat.detach hR hdistinct fun x =>
        hperm.mem_iff.trans (mem_eraseP_iff hat.distinct)⟩
    · rw [if_neg hvb]
      refine ⟨cs, rfl, hat.of_not_isEnd (e := e) ?_ fun d hd => ?_⟩
      · exact fun hend => not_or.mpr ⟨hva, hvb⟩ (hab.isEnd_iff.mp hend)
      · rw [hR, and_iff_left hd]

end
end Mesh
end DiskCut
