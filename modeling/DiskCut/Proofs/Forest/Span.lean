import DiskCut.Proofs.Forest.Grown

/-!
# The uncrossed edges of a tree

* `Uncrossed m h r e`    edge `e` of a triangle in the tree of `r` is no parent edge
* `Grown.linked`         the uncrossed edges of a tree join all corners of its triangles

A triangle that is reached through the edge `ab` brings two further sides `bc` and `ca`; a walk
that took `ab` takes these now.
-/

namespace DiskCut
namespace Mesh
variable {α : Type} {m : Mesh α}

/-- edge `e` of a triangle in the tree of `r`, which no triangle was reached through -/
def Uncrossed (m : Mesh α) (h : List Visit) (r : TriangleId) (e : EdgeId) : Prop :=
  ¬ IsParent h e ∧ ∃ x ∈ h, x.root = r ∧ m.Incident e x.triangle

section
variable {E : EdgeId → Prop} {e : EdgeId} {t : TriangleId} {a b : VertexId} (fit : m.Fitted)
include fit

/-- the corners of a triangle are joined by its sides -/
theorem Fitted.walk_corners (hE : ∀ e, m.Incident e t → E e) (ha : m.IsCorner t a)
    (hb : m.IsCorner t b) : m.Walk E a b := by
  obtain ⟨vs, hvs, i, rfl⟩ := ha
  obtain ⟨ws, hws, j, rfl⟩ := hb
  rw [hvs] at hws
  obtain rfl := Option.some.inj hws
  have side : ∀ k, m.Walk E (vs.get k) (vs.get (k + 1)) := by
    intro k
    obtain ⟨e, hjoin, hinc⟩ := fit.exists_side hvs k
    exact .single (hE e hinc) hjoin
  match i, j with
  | 0, 0 | 1, 1 | 2, 2 => exact .refl
  | 0, 1 => exact side 0
  | 1, 2 => exact side 1
  | 2, 0 => exact side 2
  | 1, 0 => exact (side 0).symm
  | 2, 1 => exact (side 1).symm
  | 0, 2 => exact (side 2).symm

/-- the third corner of a triangle at an edge, with the two other sides -/
theorem Fitted.exists_third (ht : m.Incident e t) : ∃ a b c f g, m.Joins e a b ∧ m.Joins f b c ∧
    m.Joins g c a ∧ m.Incident f t ∧ m.Incident g t ∧ f ≠ e ∧ g ≠ e ∧
    ∀ v, m.IsCorner t v → v = a ∨ v = b ∨ v = c := by
  obtain ⟨vs, j, hvs, hjoin⟩ := fit.exists_joins ht
  have hdistinct := fit.proper hvs
  obtain ⟨f, hf, hft⟩ := fit.exists_side hvs (j + 1)
  obtain ⟨g, hg, hgt⟩ := fit.exists_side hvs (j + 1 + 1)
  have hj : j + 1 + 1 + 1 = j := by
    clear hvs hjoin hf hg
    decide +revert
  rw [hj] at hg
  have apart : ∀ {i k : Fin 3} {d : EdgeId}, i ≠ k → m.Joins e (vs.get i) (vs.get (i + 1)) →
      m.Joins d (vs.get k) (vs.get (k + 1)) → d ≠ e := by
    rintro i k d hik ⟨x, hx, hxends⟩ ⟨y, hy, hyends⟩ rfl
    rw [hx] at hy
    obtain rfl := Option.some.inj hy
    rw [← Triple.get_keys] at hxends hyends
    exact hik (Triple.keys_injective hdistinct (hxends.symm.trans hyends))
  refine ⟨_, _, _, f, g, hjoin, hf, hg, hft, hgt, ?_, ?_, ?_⟩
  · exact apart (Triple.ne_succ j) hjoin hf
  · refine apart (k := j + 1 + 1) ?_ hjoin (by rw [hj]; exact hg)
    clear hvs hjoin hf hg hj
    decide +revert
  · intro v hv
    obtain ⟨ws, hws, k, rfl⟩ := hv
    rw [hvs] at hws
    obtain rfl := Option.some.inj hws
    have hk : k = j ∨ k = j + 1 ∨ k = j + 1 + 1 := by
      clear hvs hjoin hf hg hj
      decide +revert
    rcases hk with rfl | rfl | rfl
    · exact .inl rfl
    · exact .inr (.inl rfl)
    · exact .inr (.inr rfl)

end

namespace Grown
variable {h : List Visit} {x y : Visit} {e : EdgeId} {t u r : TriangleId} {a b : VertexId}

/-- the edges of a triangle not seen yet are no parent edges -/
theorem not_isParent (fit : m.Fitted) (hg : Grown m h) (hnew : ¬ Seen h t)
    (ht : m.Incident e t) : ¬ IsParent h e := by
  intro ⟨x, hx, he⟩
  exact hnew (hg.seen_of_parent fit hx he ht)

/-- the other sides of a triangle that is reached through an edge are uncrossed -/
theorem uncrossed_reach (fit : m.Fitted) (hg : Grown m h) (hnew : ¬ Seen h t) {i : EdgeId}
    (hi : m.Incident i t) (hie : i ≠ e) : Uncrossed m (⟨t, r, some e⟩ :: h) r i := by
  refine ⟨?_, ⟨t, r, some e⟩, List.mem_cons_self, rfl, hi⟩
  rw [isParent_cons_iff]
  intro hcase
  rcases hcase with heq | hold
  · exact hie (Option.some.inj heq).symm
  · exact hg.not_isParent fit hnew hi hold

/-- walks along uncrossed edges remain when a tree is planted -/
theorem walk_plant (hwalk : m.Walk (Uncrossed m h r) a b) :
    m.Walk (Uncrossed m (⟨t, t, none⟩ :: h) r) a b := by
  refine hwalk.mono fun e he => ⟨?_, ?_⟩
  · rw [isParent_cons_iff]
    exact fun hparent => hparent.elim nofun he.1
  · obtain ⟨x, hx, hroot, hinc⟩ := he.2
    exact ⟨x, List.mem_cons_of_mem _ hx, hroot, hinc⟩

/-- walks along uncrossed edges remain, with a detour, when a triangle is reached -/
theorem walk_reach (fit : m.Fitted) (hg : Grown m h) (hx : x ∈ h) (hxe : m.Incident e x.triangle)
    (hte : m.Incident e t) (hnew : ¬ Seen h t) (hwalk : m.Walk (Uncrossed m h r) a b) :
    m.Walk (Uncrossed m (⟨t, x.root, some e⟩ :: h) r) a b := by
  have hne : x.triangle ≠ t := fun hxt => hnew ⟨x, hx, hxt⟩
  refine hwalk.replace fun d p q hd hjoin => ?_
  obtain ⟨hparent, z, hz, hroot, hinc⟩ := hd
  by_cases hde : d = e
  · subst hde
    -- the edge is crossed now, and the walk takes the two other sides of `t`
    have hzx : z = x := by
      rcases fit.eq_or_eq_of_incident hxe hte hne hinc with hzx | hzt
      · exact hg.eq_of_triangle hz hx hzx
      · exact absurd ⟨z, hz, hzt⟩ hnew
    rw [hzx] at hroot
    rw [hroot]
    obtain ⟨a, b, c, f, g, hab, hbc, hca, hft, hgt, hf, hg', _⟩ := fit.exists_third hte
    have hba : m.Walk (Uncrossed m (⟨t, r, some d⟩ :: h) r) b a :=
      (Walk.single (hg.uncrossed_reach fit hnew hft hf) hbc).trans
        (.single (hg.uncrossed_reach fit hnew hgt hg') hca)
    obtain ⟨w, hw, hends⟩ := hjoin
    obtain ⟨w', hw', hends'⟩ := hab
    rw [hw] at hw'
    obtain rfl := Option.some.inj hw'
    rcases edgeKey_eq_iff.mp (hends.symm.trans hends') with ⟨rfl, rfl⟩ | ⟨rfl, rfl⟩
    · exact hba.symm
    · exact hba
  · refine .single ⟨?_, z, List.mem_cons_of_mem _ hz, hroot, hinc⟩ hjoin
    rw [isParent_cons_iff]
    intro hcase
    rcases hcase with heq | hold
    · exact hde (Option.some.inj heq).symm
    · exact hparent hold

/-- the uncrossed edges of a tree join all corners of its triangles -/
theorem linked (fit : m.Fitted) (hg : Grown m h) : ∀ x ∈ h, ∀ y ∈ h, x.root = y.root →
    ∀ a b, m.IsCorner x.triangle a → m.IsCorner y.triangle b →
      m.Walk (Uncrossed m h x.root) a b := by
  induction hg with
  | nil => simp
  | @plant h t hg _ hnew _ ih =>
    have hroot : ∀ y ∈ h, y.root ≠ t := by
      intro y hy hyt
      obtain ⟨z, hz, hzt, _⟩ := hg.exists_root y hy
      exact hnew ⟨z, hz, hzt.trans hyt⟩
    intro x hx y hy hxy a b ha hb
    rcases List.mem_cons.mp hx with rfl | hx
    · rcases List.mem_cons.mp hy with rfl | hy
      · refine fit.walk_corners (fun e he => ⟨?_, _, List.mem_cons_self, rfl, he⟩) ha hb
        rw [isParent_cons_iff]
        exact fun hparent => hparent.elim nofun (hg.not_isParent fit hnew he)
      · exact absurd hxy.symm (hroot y hy)
    · rcases List.mem_cons.mp hy with rfl | hy
      · exact absurd hxy (hroot x hx)
      · exact walk_plant (ih x hx y hy hxy a b ha hb)
  | @reach h z e t hg hz _ hze hte hnew ih =>
    -- the new triangle hangs on to the old ones at an end of the edge
    obtain ⟨p, q, c, f, g, hpq, hqc, hcp, hft, hgt, hf, hg', hcorner⟩ := fit.exists_third hte
    have hp := fit.isCorner_of_incident hze hpq.isEnd_left
    have hcp' : m.Walk (Uncrossed m (⟨t, z.root, some e⟩ :: h) z.root) c p :=
      .single (hg.uncrossed_reach fit hnew hgt hg') hcp
    have htop : ∀ a, m.IsCorner t a →
        m.Walk (Uncrossed m (⟨t, z.root, some e⟩ :: h) z.root) a p := by
      intro a ha
      rcases hcorner a ha with rfl | rfl | rfl
      · exact .refl
      · exact (Walk.single (hg.uncrossed_reach fit hnew hft hf) hqc).trans hcp'
      · exact hcp'
    have hold : ∀ x ∈ h, ∀ y ∈ h, x.root = y.root → ∀ a b, m.IsCorner x.triangle a →
        m.IsCorner y.triangle b → m.Walk (Uncrossed m (⟨t, z.root, some e⟩ :: h) x.root) a b :=
      fun x hx y hy hxy a b ha hb =>
        hg.walk_reach fit hz hze hte hnew (ih x hx y hy hxy a b ha hb)
    intro x hx y hy hxy a b ha hb
    rcases List.mem_cons.mp hx with rfl | hx
    · rcases List.mem_cons.mp hy with rfl | hy
      · exact (htop a ha).trans (htop b hb).symm
      · exact (htop a ha).trans (hold z hz y hy hxy p b hp hb)
    · rcases List.mem_cons.mp hy with rfl | hy
      · have hzx := hold x hx z hz hxy a p ha hp
        change x.root = z.root at hxy
        rw [hxy] at hzx ⊢
        exact hzx.trans (htop b hb).symm
      · exact hold x hx y hy hxy a b ha hb

end Grown
end Mesh
end DiskCut
