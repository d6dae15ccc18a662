import DiskCut.Proofs.Forest.Roots
import DiskCut.Proofs.Mesh.Cycles

/-!
# The seams of a tree

* `treeTriangles m f r`   the triangles from which parents lead to the root `r`
* `treeEdges m f r`, `treeCorners m f r`   their edges and their corners
* `seams m f r`           the edges among these that no triangle was reached through
* `Seamed m f r`          the seams join all corners, with as many cycles as the numbers of
                          triangles, edges and corners tell
* `spanningForest_seamed`   every tree of every forest is seamed
-/

namespace DiskCut
open Std
namespace Mesh
variable {α : Type}

open Classical in
/-- the triangles from which parents lead to `r` -/
noncomputable def treeTriangles (m : Mesh α) (f : SpanningForest) (r : TriangleId) :
    Finset TriangleId :=
  (Finset.range m.triangles.size).filter fun t => Relation.ReflTransGen (m.ParentStep f) t r

open Classical in
noncomputable def treeEdges (m : Mesh α) (f : SpanningForest) (r : TriangleId) : Finset EdgeId :=
  (Finset.range m.edges.size).filter fun e => ∃ t ∈ m.treeTriangles f r, m.Incident e t

open Classical in
noncomputable def treeCorners (m : Mesh α) (f : SpanningForest) (r : TriangleId) :
    Finset VertexId :=
  (Finset.range m.vertices.size).filter fun v => ∃ t ∈ m.treeTriangles f r, m.IsCorner t v

open Classical in
/-- the edges of a tree that are no parent edges -/
noncomputable def seams (m : Mesh α) (f : SpanningForest) (r : TriangleId) : Finset EdgeId :=
  (m.treeEdges f r).filter fun e => ∀ t : TriangleId, f.parentEdge[t]? ≠ some (some e)

/-- the seams are the candidates and the boundary among the edges of the tree; they join all its
corners, and have `edges - corners - triangles + 2` independent cycles -/
structure Seamed (m : Mesh α) (f : SpanningForest) (r : TriangleId) : Prop where
  seam_iff : ∀ e ∈ m.treeEdges f r, e ∈ m.seams f r ↔ e ∈ f.candidates ∨ m.IsBoundary e
  ends : ∀ e ∈ m.seams f r, ∀ v, m.IsEnd e v → v ∈ m.treeCorners f r
  covers : ∀ v ∈ m.treeCorners f r, ∃ e ∈ m.seams f r, m.IsEnd e v
  connected : ∀ v ∈ m.treeCorners f r, ∀ w ∈ m.treeCorners f r, m.Walk (· ∈ m.seams f r) v w
  cycles : (m.cycleRank (m.seams f r) : Int) =
    (m.treeEdges f r).card - (m.treeCorners f r).card - (m.treeTriangles f r).card + 2

section
variable {m : Mesh α} {e : EdgeId} {t : TriangleId}

theorem Fitted.isBoundary_or_isInner (fit : m.Fitted) (ht : m.Incident e t) :
    m.IsBoundary e ∨ m.IsInner e := by
  obtain ⟨ts, hts, _⟩ := ht
  have hlen := fit.length_le_two hts
  rcases Nat.lt_or_eq_of_le hlen with hlt | htwo
  · exact .inl ⟨ts, hts, hlt⟩
  · obtain ⟨t, u, rfl⟩ := List.length_eq_two.mp htwo
    exact .inr ⟨t, u, hts⟩

theorem IsInner.not_isBoundary (h : m.IsInner e) : ¬ m.IsBoundary e := by
  obtain ⟨t, u, htu⟩ := h
  rintro ⟨ts, hts, hlen⟩
  rw [htu] at hts
  obtain rfl := Option.some.inj hts
  exact Nat.lt_irrefl _ hlen

end

namespace Spanning
variable {m : Mesh α} {f : SpanningForest} {h : List Visit} {e : EdgeId} {t r : TriangleId}
  {v w : VertexId} (hs : m.Spanning f h) (fit : m.Fitted) (hr : r ∈ f.roots)
include hs fit hr

/-! ## trees as visits -/

theorem mem_treeTriangles : t ∈ m.treeTriangles f r ↔ ∃ x ∈ h, x.root = r ∧ x.triangle = t := by
  classical
  unfold treeTriangles
  rw [Finset.mem_filter, Finset.mem_range]
  refine ⟨fun ⟨ht, hchain⟩ => ?_, ?_⟩
  · obtain ⟨x, hx, rfl⟩ := hs.seen t ht
    refine ⟨x, hx, ?_, rfl⟩
    exact hs.eq_of_root_chain fit hr (hs.chain_root fit hx hchain)
  · rintro ⟨x, hx, rfl, rfl⟩
    exact ⟨hs.grown.lt_size fit x hx, hs.chain_root fit hx .refl⟩

theorem mem_treeEdges : e ∈ m.treeEdges f r ↔ ∃ x ∈ h, x.root = r ∧ m.Incident e x.triangle := by
  classical
  unfold treeEdges
  rw [Finset.mem_filter, Finset.mem_range]
  simp only [hs.mem_treeTriangles fit hr]
  refine ⟨?_, ?_⟩
  · rintro ⟨_, _, ⟨x, hx, hroot, rfl⟩, hinc⟩
    exact ⟨x, hx, hroot, hinc⟩
  · rintro ⟨x, hx, hroot, hinc⟩
    exact ⟨fit.lt_size_of_incident hinc, _, ⟨x, hx, hroot, rfl⟩, hinc⟩

theorem mem_treeCorners :
    v ∈ m.treeCorners f r ↔ ∃ x ∈ h, x.root = r ∧ m.IsCorner x.triangle v := by
  classical
  unfold treeCorners
  rw [Finset.mem_filter, Finset.mem_range]
  simp only [hs.mem_treeTriangles fit hr]
  refine ⟨?_, ?_⟩
  · rintro ⟨_, _, ⟨x, hx, hroot, rfl⟩, hcorner⟩
    exact ⟨x, hx, hroot, hcorner⟩
  · rintro ⟨x, hx, hroot, hcorner⟩
    exact ⟨fit.corner_lt_of_isCorner hcorner, _, ⟨x, hx, hroot, rfl⟩, hcorner⟩

theorem mem_seams : e ∈ m.seams f r ↔ Uncrossed m h r e := by
  classical
  unfold seams Uncrossed
  rw [Finset.mem_filter, hs.mem_treeEdges fit hr, hs.isParent_iff, not_exists, and_comm]

/-! ## what seams join -/

theorem ends_seam (he : e ∈ m.seams f r) (hv : m.IsEnd e v) : v ∈ m.treeCorners f r := by
  obtain ⟨_, x, hx, hroot, hinc⟩ := (hs.mem_seams fit hr).mp he
  exact (hs.mem_treeCorners fit hr).mpr ⟨x, hx, hroot, fit.isCorner_of_incident hinc hv⟩

theorem seam_walk (hv : v ∈ m.treeCorners f r) (hw : w ∈ m.treeCorners f r) :
    m.Walk (· ∈ m.seams f r) v w := by
  obtain ⟨x, hx, rfl, hxv⟩ := (hs.mem_treeCorners fit hr).mp hv
  obtain ⟨y, hy, hroot, hyw⟩ := (hs.mem_treeCorners fit hr).mp hw
  have hwalk := hs.grown.linked fit x hx y hy hroot.symm v w hxv hyw
  exact hwalk.mono fun e he => (hs.mem_seams fit hr).mpr he

/-- a corner has another corner beside it, to which the first seam of a walk leads on -/
theorem exists_seam (hv : v ∈ m.treeCorners f r) : ∃ e ∈ m.seams f r, m.IsEnd e v := by
  obtain ⟨x, hx, hroot, vs, hvs, j, rfl⟩ := (hs.mem_treeCorners fit hr).mp hv
  have hnext : vs.get (j + 1) ∈ m.treeCorners f r :=
    (hs.mem_treeCorners fit hr).mpr ⟨x, hx, hroot, vs, hvs, j + 1, rfl⟩
  rcases Relation.ReflTransGen.cases_head (hs.seam_walk fit hr hv hnext) with heq | ⟨_, hstep, _⟩
  · exact absurd heq (Triple.get_ne_get_succ (fit.proper hvs) j)
  · obtain ⟨e, he, hjoin⟩ := hstep
    exact ⟨e, he, hjoin.isEnd_left⟩

theorem seam_iff (he : e ∈ m.treeEdges f r) :
    e ∈ m.seams f r ↔ e ∈ f.candidates ∨ m.IsBoundary e := by
  obtain ⟨x, hx, hroot, hinc⟩ := (hs.mem_treeEdges fit hr).mp he
  have hseam : e ∈ m.seams f r ↔ ¬ IsParent h e :=
    (hs.mem_seams fit hr).trans ⟨And.left, fun hnot => ⟨hnot, x, hx, hroot, hinc⟩⟩
  rw [hseam, hs.candidates]
  refine ⟨fun hnot => ?_, ?_⟩
  · rcases fit.isBoundary_or_isInner hinc with hboundary | hinner
    · exact .inr hboundary
    · exact .inl ⟨.inr hinner, hnot⟩
  · rintro (⟨_, hnot⟩ | hboundary) hparent
    · exact hnot hparent
    · exact (hs.grown.isInner_of_isParent fit hparent).not_isBoundary hboundary

/-! ## counts -/

omit fit hr in
/-- the triangles at a parent edge are in one tree -/
theorem root_eq_of_parent (fit : m.Fitted) {x y : Visit} (hx : x ∈ h) (hxe : x.parent = some e)
    (hy : y ∈ h) (hye : m.Incident e y.triangle) : y.root = x.root := by
  obtain ⟨_, hinc, z, hz, hinc', hne, hroot⟩ := hs.grown.exists_parent x hx e hxe
  rcases fit.eq_or_eq_of_incident hinc' hinc hne hye with heq | heq
  · rw [hs.grown.eq_of_triangle hy hz heq, hroot]
  · rw [hs.grown.eq_of_triangle hy hx heq]

omit fit in
/-- the visits of a tree, of which one is that of the root -/
theorem length_tree_roots : ((h.filter (·.root == r)).filter (·.parent.isNone)).length = 1 := by
  have hnodup := hs.grown.nodup.sublist
    ((List.filter_sublist.trans List.filter_sublist).map Visit.triangle :
      (((h.filter (·.root == r)).filter (·.parent.isNone)).map Visit.triangle).Sublist _)
  rw [← List.length_map Visit.triangle]
  refine ((List.perm_ext_iff_of_nodup hnodup (List.nodup_singleton r)).mpr fun t => ?_).length_eq
  simp only [List.mem_map, List.mem_filter, beq_iff_eq, Option.isNone_iff_eq_none,
    List.mem_singleton]
  refine ⟨?_, ?_⟩
  · rintro ⟨x, ⟨⟨hx, hroot⟩, hnone⟩, rfl⟩
    rw [← hroot, hs.grown.root_eq_of_parent_none x hx hnone]
  · rintro rfl
    obtain ⟨x, hx, hnone, rfl⟩ := hs.mem_roots.mp hr
    exact ⟨x, ⟨⟨hx, hs.grown.root_eq_of_parent_none x hx hnone⟩, hnone⟩, rfl⟩

/-- one visit for each triangle of the tree -/
theorem card_treeTriangles : (m.treeTriangles f r).card = (h.filter (·.root == r)).length := by
  classical
  have hlist : m.treeTriangles f r = ((h.filter (·.root == r)).map Visit.triangle).toFinset := by
    ext t
    rw [hs.mem_treeTriangles fit hr, List.mem_toFinset, List.mem_map]
    simp only [List.mem_filter, beq_iff_eq, and_assoc]
  rw [hlist, List.toFinset_card_of_nodup (hs.grown.nodup.sublist (List.filter_sublist.map _)),
    List.length_map]

/-- each edge of the tree is a seam or the parent edge of one of its triangles -/
theorem card_treeEdges : (m.treeEdges f r).card =
    (m.seams f r).card + ((h.filter (·.root == r)).filterMap Visit.parent).length := by
  classical
  have hnodup : ((h.filter (·.root == r)).filterMap Visit.parent).Nodup :=
    (hs.grown.nodup_parents fit).sublist (List.filter_sublist.filterMap _)
  have hmem : ∀ e, e ∈ (h.filter (·.root == r)).filterMap Visit.parent ↔
      ∃ x ∈ h, x.root = r ∧ x.parent = some e := by
    intro e
    simp only [List.mem_filterMap, List.mem_filter, beq_iff_eq, and_assoc]
  have hunion : m.treeEdges f r =
      m.seams f r ∪ ((h.filter (·.root == r)).filterMap Visit.parent).toFinset := by
    ext e
    rw [Finset.mem_union, hs.mem_treeEdges fit hr, hs.mem_seams fit hr, List.mem_toFinset, hmem]
    refine ⟨fun ⟨x, hx, hroot, hinc⟩ => ?_, ?_⟩
    · by_cases hparent : IsParent h e
      · obtain ⟨y, hy, hye⟩ := hparent
        exact .inr ⟨y, hy, (hs.root_eq_of_parent fit hy hye hx hinc).symm.trans hroot, hye⟩
      · exact .inl ⟨hparent, x, hx, hroot, hinc⟩
    · rintro (⟨_, hincident⟩ | ⟨x, hx, hroot, hxe⟩)
      · exact hincident
      · exact ⟨x, hx, hroot, (hs.grown.exists_parent x hx e hxe).2.1⟩
  have hdisjoint : Disjoint (m.seams f r)
      ((h.filter (·.root == r)).filterMap Visit.parent).toFinset := by
    rw [Finset.disjoint_left]
    intro e he hparent
    obtain ⟨x, hx, _, hxe⟩ := (hmem e).mp (List.mem_toFinset.mp hparent)
    exact ((hs.mem_seams fit hr).mp he).1 ⟨x, hx, hxe⟩
  rw [hunion, Finset.card_union_of_disjoint hdisjoint, List.toFinset_card_of_nodup hnodup]

theorem cycles_eq : (m.cycleRank (m.seams f r) : Int) =
    (m.treeEdges f r).card - (m.treeCorners f r).card - (m.treeTriangles f r).card + 2 := by
  have hends : ∀ e ∈ m.seams f r,
      ∃ a ∈ m.treeCorners f r, ∃ b ∈ m.treeCorners f r, m.Joins e a b := by
    intro e he
    obtain ⟨_, x, _, _, hinc⟩ := (hs.mem_seams fit hr).mp he
    obtain ⟨vs, j, _, hjoin⟩ := fit.exists_joins hinc
    exact ⟨_, hs.ends_seam fit hr he hjoin.isEnd_left, _, hs.ends_seam fit hr he hjoin.isEnd_right,
      hjoin⟩
  have hne : (m.treeCorners f r).Nonempty := by
    obtain ⟨x, hx, hnone, rfl⟩ := hs.mem_roots.mp hr
    have hvs := Array.getElem?_eq_getElem (hs.grown.lt_size fit x hx)
    exact ⟨_, (hs.mem_treeCorners fit hr).mpr
      ⟨x, hx, hs.grown.root_eq_of_parent_none x hx hnone, _, hvs, 0, rfl⟩⟩
  have hrank := cycleRank_add hends (fun v hv w hw => hs.seam_walk fit hr hv hw) hne
  have hedges := hs.card_treeEdges fit hr
  have htriangles := hs.card_treeTriangles fit hr
  have hlen := length_parents (h.filter (·.root == r))
  rw [hs.length_tree_roots hr] at hlen
  omega

theorem seamed : m.Seamed f r where
  seam_iff := fun _ he => hs.seam_iff fit hr he
  ends := fun _ he _ hv => hs.ends_seam fit hr he hv
  covers := fun _ hv => hs.exists_seam fit hr hv
  connected := fun _ hv _ hw => hs.seam_walk fit hr hv hw
  cycles := hs.cycles_eq fit hr

end Spanning

/-- every tree of the forest that a field with a distance for each vertex gives is seamed -/
theorem spanningForest_seamed [Scalar α] [Extended α] {m : Mesh α} (valid : m.Valid)
    {field : DistanceField α} (hfield : field.distances.size = m.vertices.size)
    (order : GrowthOrder) :
    ∃ f, m.spanningForest field order = .ok f ∧ ∀ r ∈ f.roots, m.Seamed f r := by
  have fit := valid.sound.toFitted
  obtain ⟨f, h, hok, hs⟩ := fit.spanningForest_ok hfield order
  exact ⟨f, hok, fun r hr => hs.seamed fit hr⟩

theorem seamed_braced : ∃ m f, threeTriangles.result = .ok m ∧
    (braced m).spanningForest strangeField .farthestFirst = .ok f ∧ f.roots = [0, 1] ∧
    ∀ r ∈ f.roots, (braced m).Seamed f r := by
  obtain ⟨m, f, hm, valid, hsize, hf, hroots⟩ := exists_braced
  obtain ⟨f', hf', hseamed⟩ := spanningForest_seamed valid hsize .farthestFirst
  rw [hf] at hf'
  obtain rfl := Except.ok.inj hf'
  exact ⟨m, f, hm, hf, hroots, hseamed⟩

end Mesh
end DiskCut
