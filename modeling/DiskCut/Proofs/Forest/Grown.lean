import DiskCut.Proofs.Mesh.Sound
import Mathlib.Data.List.Perm.Subperm

/-!
# Growing trees in the dual graph

A forest is told by the visits of its triangles, the latest first.

* `Visit`          a triangle with the root of its tree and the edge through which it was reached
* `Grown m h`      the visits `h` can be made: a tree is planted when those before it can grow no
                   further, and grows across a plain edge to a triangle not seen before
* `IsParent h e`   a triangle was reached through the edge `e`
* `tree_root`      a tree is connected along its parent edges
* `root_eq_iff`    when no tree can grow further, trees are the connected parts of the dual graph
* `parent_unique`  different triangles are reached through different edges
-/

namespace DiskCut
namespace Mesh
variable {α : Type} {m : Mesh α}

structure Visit where
  triangle : TriangleId
  root : TriangleId
  parent : Option EdgeId

/-- triangle `t` was visited -/
def Seen (h : List Visit) (t : TriangleId) : Prop := ∃ x ∈ h, x.triangle = t

/-- the neighbours of visited triangles were visited as well -/
def Closed (m : Mesh α) (h : List Visit) : Prop :=
  ∀ x ∈ h, ∀ u, m.Dual x.triangle u → Seen h u

/-- a triangle was reached through the edge `e` -/
def IsParent (h : List Visit) (e : EdgeId) : Prop := ∃ x ∈ h, x.parent = some e

/-- triangles `t` and `u` share a parent edge -/
def TreeStep (m : Mesh α) (h : List Visit) (t u : TriangleId) : Prop :=
  ∃ e, IsParent h e ∧ m.Incident e t ∧ m.Incident e u

inductive Grown (m : Mesh α) : List Visit → Prop where
  | nil : Grown m []
  | plant {h : List Visit} {t : TriangleId} : Grown m h → t < m.triangles.size → ¬ Seen h t →
      m.Closed h → Grown m (⟨t, t, none⟩ :: h)
  | reach {h : List Visit} {x : Visit} {e : EdgeId} {t : TriangleId} : Grown m h → x ∈ h →
      m.IsPlain e → m.Incident e x.triangle → m.Incident e t → ¬ Seen h t →
      Grown m (⟨t, x.root, some e⟩ :: h)

theorem seen_of_mem {h : List Visit} {x : Visit} (hx : x ∈ h) : Seen h x.triangle := ⟨x, hx, rfl⟩

theorem Seen.cons {h : List Visit} {x : Visit} {t : TriangleId} (ht : Seen h t) :
    Seen (x :: h) t := by
  obtain ⟨y, hy, rfl⟩ := ht
  exact ⟨y, List.mem_cons_of_mem _ hy, rfl⟩

theorem seen_cons_iff {h : List Visit} {x : Visit} {t : TriangleId} :
    Seen (x :: h) t ↔ x.triangle = t ∨ Seen h t := by
  unfold Seen
  simp only [List.mem_cons, exists_eq_or_imp]

theorem isParent_cons_iff {h : List Visit} {x : Visit} {e : EdgeId} :
    IsParent (x :: h) e ↔ x.parent = some e ∨ IsParent h e := by
  unfold IsParent
  simp only [List.mem_cons, exists_eq_or_imp]

/-- a visit has a parent edge or is that of a root -/
theorem length_parents (h : List Visit) :
    (h.filterMap Visit.parent).length + (h.filter (·.parent.isNone)).length = h.length := by
  induction h with
  | nil => rfl
  | cons x h ih =>
    cases hx : x.parent with
    | none =>
      rw [List.filterMap_cons_none hx, List.filter_cons_of_pos (by rw [hx]; rfl), List.length_cons,
        List.length_cons]
      omega
    | some e =>
      rw [List.filterMap_cons_some hx, List.filter_cons_of_neg (by rw [hx]; simp), List.length_cons,
        List.length_cons]
      omega

namespace Grown
variable {h : List Visit} {x y : Visit} {e : EdgeId} {t u : TriangleId}

theorem nodup (hg : Grown m h) : (h.map Visit.triangle).Nodup := by
  induction hg with
  | nil => exact List.nodup_nil
  | plant _ _ hnew _ ih | reach _ _ _ _ _ hnew ih =>
    rw [List.map_cons, List.nodup_cons]
    refine ⟨fun hmem => hnew ?_, ih⟩
    obtain ⟨y, hy, hyt⟩ := List.mem_map.mp hmem
    exact ⟨y, hy, hyt⟩

theorem eq_of_triangle (hg : Grown m h) (hx : x ∈ h) (hy : y ∈ h)
    (hxy : x.triangle = y.triangle) : x = y :=
  List.inj_on_of_nodup_map hg.nodup hx hy hxy

theorem lt_size (fit : m.Fitted) (hg : Grown m h) : ∀ x ∈ h, x.triangle < m.triangles.size := by
  induction hg with
  | nil => simp
  | plant _ hlt _ _ ih =>
    intro x hx
    rcases List.mem_cons.mp hx with rfl | hx
    · exact hlt
    · exact ih x hx
  | reach _ _ _ _ hinc _ ih =>
    intro x hx
    rcases List.mem_cons.mp hx with rfl | hx
    · exact fit.lt_of_incident hinc
    · exact ih x hx

theorem length_le (fit : m.Fitted) (hg : Grown m h) : h.length ≤ m.triangles.size := by
  have hsub : h.map Visit.triangle ⊆ List.range m.triangles.size := by
    intro t ht
    obtain ⟨x, hx, rfl⟩ := List.mem_map.mp ht
    exact List.mem_range.mpr (hg.lt_size fit x hx)
  have hle := (hg.nodup.subperm hsub).length_le
  rwa [List.length_map, List.length_range] at hle

/-! ## parents -/

/-- a parent edge is a plain edge between a triangle and one visited before, in the same tree -/
theorem exists_parent (hg : Grown m h) : ∀ x ∈ h, ∀ e, x.parent = some e →
    m.IsPlain e ∧ m.Incident e x.triangle ∧ ∃ y ∈ h, m.Incident e y.triangle ∧
      y.triangle ≠ x.triangle ∧ y.root = x.root := by
  induction hg with
  | nil => simp
  | plant _ _ _ _ ih =>
    intro x hx e he
    rcases List.mem_cons.mp hx with rfl | hx
    · cases he
    · obtain ⟨hplain, hinc, y, hy, hrest⟩ := ih x hx e he
      exact ⟨hplain, hinc, y, List.mem_cons_of_mem _ hy, hrest⟩
  | reach _ hmem hplain hinc hinc' hnew ih =>
    intro x hx e he
    rcases List.mem_cons.mp hx with rfl | hx
    · obtain rfl := Option.some.inj he
      refine ⟨hplain, hinc', _, List.mem_cons_of_mem _ hmem, hinc, ?_, rfl⟩
      intro e
      exact hnew ⟨_, hmem, e⟩
    · obtain ⟨hplain, hinc, y, hy, hrest⟩ := ih x hx e he
      exact ⟨hplain, hinc, y, List.mem_cons_of_mem _ hy, hrest⟩

theorem isPlain_of_isParent (hg : Grown m h) (he : IsParent h e) : m.IsPlain e := by
  obtain ⟨x, hx, hxe⟩ := he
  exact (hg.exists_parent x hx e hxe).1

/-- all triangles at a parent edge were visited -/
theorem seen_of_parent (fit : m.Fitted) (hg : Grown m h) (hx : x ∈ h) (he : x.parent = some e)
    (hu : m.Incident e u) : Seen h u := by
  obtain ⟨_, hinc, y, hy, hinc', hne, _⟩ := hg.exists_parent x hx e he
  rcases fit.eq_or_eq_of_incident hinc' hinc hne hu with rfl | rfl
  · exact seen_of_mem hy
  · exact seen_of_mem hx

/-- different triangles are reached through different edges -/
theorem parent_unique (fit : m.Fitted) (hg : Grown m h) :
    ∀ x ∈ h, ∀ y ∈ h, ∀ e, x.parent = some e → y.parent = some e → x = y := by
  induction hg with
  | nil => simp
  | plant _ _ _ _ ih =>
    intro x hx y hy e hxe hye
    rcases List.mem_cons.mp hx with rfl | hx
    · cases hxe
    · rcases List.mem_cons.mp hy with rfl | hy
      · cases hye
      · exact ih x hx y hy e hxe hye
  | reach hg _ _ _ hinc hnew ih =>
    intro x hx y hy e hxe hye
    rcases List.mem_cons.mp hx with rfl | hx
    · rcases List.mem_cons.mp hy with rfl | hy
      · rfl
      · obtain rfl := Option.some.inj hxe
        exact absurd (hg.seen_of_parent fit hy hye hinc) hnew
    · rcases List.mem_cons.mp hy with rfl | hy
      · obtain rfl := Option.some.inj hye
        exact absurd (hg.seen_of_parent fit hx hxe hinc) hnew
      · exact ih x hx y hy e hxe hye

theorem isInner_of_isParent (fit : m.Fitted) (hg : Grown m h) (he : IsParent h e) :
    m.IsInner e := by
  obtain ⟨x, hx, hxe⟩ := he
  obtain ⟨_, hinc, y, _, hinc', hne, _⟩ := hg.exists_parent x hx e hxe
  exact fit.isInner_of_incident hinc' hinc hne

theorem nodup_parents (fit : m.Fitted) (hg : Grown m h) : (h.filterMap Visit.parent).Nodup := by
  refine List.pairwise_filterMap.mpr (hg.nodup.of_map.pairwise_of_forall_ne ?_)
  rintro x hx y hy hne e he d hd rfl
  exact hne (hg.parent_unique fit x hx y hy e he hd)

/-! ## roots -/

/-- every tree has its root, which alone was reached through no edge -/
theorem exists_root (hg : Grown m h) : ∀ x ∈ h, ∃ y ∈ h, y.triangle = x.root ∧ y.root = x.root ∧
    y.parent = none := by
  induction hg with
  | nil => simp
  | plant _ _ _ _ ih =>
    intro x hx
    rcases List.mem_cons.mp hx with rfl | hx
    · exact ⟨_, List.mem_cons_self, rfl, rfl, rfl⟩
    · obtain ⟨y, hy, hroot⟩ := ih x hx
      exact ⟨y, List.mem_cons_of_mem _ hy, hroot⟩
  | reach _ hmem _ _ _ _ ih =>
    intro x hx
    rcases List.mem_cons.mp hx with rfl | hx
    · obtain ⟨y, hy, hroot⟩ := ih _ hmem
      exact ⟨y, List.mem_cons_of_mem _ hy, hroot⟩
    · obtain ⟨y, hy, hroot⟩ := ih x hx
      exact ⟨y, List.mem_cons_of_mem _ hy, hroot⟩

theorem root_eq_of_parent_none (hg : Grown m h) :
    ∀ x ∈ h, x.parent = none → x.root = x.triangle := by
  induction hg with
  | nil => simp
  | plant _ _ _ _ ih =>
    intro x hx hnone
    rcases List.mem_cons.mp hx with rfl | hx
    · rfl
    · exact ih x hx hnone
  | reach _ _ _ _ _ _ ih =>
    intro x hx hnone
    rcases List.mem_cons.mp hx with rfl | hx
    · cases hnone
    · exact ih x hx hnone

/-- a tree is connected along its parent edges -/
theorem tree_root (hg : Grown m h) :
    ∀ x ∈ h, Relation.ReflTransGen (m.TreeStep h) x.root x.triangle := by
  have keep : ∀ {h : List Visit} {x : Visit} {t u : TriangleId},
      Relation.ReflTransGen (m.TreeStep h) t u →
        Relation.ReflTransGen (m.TreeStep (x :: h)) t u := by
    intro h x t u htu
    refine Relation.ReflTransGen.mono ?_ _ _ htu
    intro t u ⟨e, he, hinc⟩
    exact ⟨e, isParent_cons_iff.mpr (.inr he), hinc⟩
  induction hg with
  | nil => simp
  | plant _ _ _ _ ih =>
    intro x hx
    rcases List.mem_cons.mp hx with rfl | hx
    · exact .refl
    · exact keep (ih x hx)
  | reach _ hmem _ hinc hinc' _ ih =>
    intro x hx
    rcases List.mem_cons.mp hx with rfl | hx
    · exact (keep (ih _ hmem)).tail ⟨_, isParent_cons_iff.mpr (.inl rfl), hinc, hinc'⟩
    · exact keep (ih x hx)

theorem dual_root (hg : Grown m h) :
    ∀ x ∈ h, Relation.ReflTransGen m.Dual x.root x.triangle := by
  intro x hx
  refine Relation.ReflTransGen.mono ?_ _ _ (hg.tree_root x hx)
  intro t u ⟨e, he, hinc⟩
  exact ⟨e, hg.isPlain_of_isParent he, hinc⟩

/-- only the latest tree can still grow, and neighbours are in one tree -/
theorem separate (hg : Grown m h) :
    (∀ cur ∈ h.head?, ∀ x ∈ h, x.root ≠ cur.root → ∀ u, m.Dual x.triangle u → Seen h u) ∧
      ∀ x ∈ h, ∀ y ∈ h, m.Dual x.triangle y.triangle → x.root = y.root := by
  induction hg with
  | nil => simp
  | @plant h t hg _ hnew hclosed ih =>
    refine ⟨?_, ?_⟩
    · intro cur hcur x hx hne u hu
      obtain rfl := Option.some.inj hcur
      rcases List.mem_cons.mp hx with rfl | hx
      · exact absurd rfl hne
      · exact (hclosed x hx u hu).cons
    · have hnone : ∀ x ∈ h, ¬ m.Dual x.triangle t := fun x hx hdual => hnew (hclosed x hx t hdual)
      intro x hx y hy hdual
      rcases List.mem_cons.mp hx with rfl | hx
      · rcases List.mem_cons.mp hy with rfl | hy
        · rfl
        · exact absurd hdual.symm (hnone y hy)
      · rcases List.mem_cons.mp hy with rfl | hy
        · exact absurd hdual (hnone x hx)
        · exact ih.2 x hx y hy hdual
  | @reach h z e t hg hmem hplain hinc hinc' hnew ih =>
    obtain ⟨cur, hcur⟩ : ∃ cur, h.head? = some cur := by
      cases h with
      | nil => cases hmem
      | cons cur _ => exact ⟨cur, rfl⟩
    -- a tree before the latest one would have reached `t` already
    have hlatest : ∀ x ∈ h, m.Dual x.triangle t → x.root = cur.root := by
      intro x hx hdual
      by_contra hne
      exact hnew (ih.1 cur hcur x hx hne t hdual)
    have hz := hlatest z hmem ⟨e, hplain, hinc, hinc'⟩
    refine ⟨?_, ?_⟩
    · intro cur' hcur' x hx hne u hu
      obtain rfl := Option.some.inj hcur'
      rcases List.mem_cons.mp hx with rfl | hx
      · exact absurd rfl hne
      · exact (ih.1 cur hcur x hx (fun hroot => hne (hroot.trans hz.symm)) u hu).cons
    · intro x hx y hy hdual
      rcases List.mem_cons.mp hx with rfl | hx
      · rcases List.mem_cons.mp hy with rfl | hy
        · rfl
        · exact hz.trans (hlatest y hy hdual.symm).symm
      · rcases List.mem_cons.mp hy with rfl | hy
        · exact (hlatest x hx hdual).trans hz.symm
        · exact ih.2 x hx y hy hdual

/-- when no tree can grow further, visited triangles that are connected are in one tree -/
theorem root_eq_of_path (hg : Grown m h) (hclosed : m.Closed h) (hx : x ∈ h)
    (hpath : Relation.ReflTransGen m.Dual x.triangle t) :
    ∃ y ∈ h, y.triangle = t ∧ y.root = x.root := by
  induction hpath with
  | refl => exact ⟨x, hx, rfl, rfl⟩
  | tail _ hstep ih =>
    obtain ⟨z, hz, rfl, hroot⟩ := ih
    obtain ⟨y, hy, rfl⟩ := hclosed z hz _ hstep
    exact ⟨y, hy, rfl, (hg.separate.2 z hz y hy hstep).symm.trans hroot⟩

/-- when no tree can grow further, trees are the connected parts of the dual graph -/
theorem root_eq_iff (hg : Grown m h) (hclosed : m.Closed h) (hx : x ∈ h) (hy : y ∈ h) :
    x.root = y.root ↔ Relation.ReflTransGen m.Dual x.triangle y.triangle := by
  refine ⟨?_, ?_⟩
  · intro hroot
    have hx' := Relation.ReflTransGen.stdSymm.symm _ _ (hg.dual_root x hx)
    have hy' := hg.dual_root y hy
    rw [← hroot] at hy'
    exact hx'.trans hy'
  · intro hpath
    obtain ⟨z, hz, hzy, hroot⟩ := hg.root_eq_of_path hclosed hx hpath
    rw [← hg.eq_of_triangle hz hy hzy]
    exact hroot.symm

end Grown
end Mesh
end DiskCut
