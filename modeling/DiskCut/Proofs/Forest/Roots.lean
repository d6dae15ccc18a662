import DiskCut.Proofs.Forest.Growth
import DiskCut.Proofs.ValidMeshes

/-!
# Roots and parents

* `plant_roots`          a triangle is a new root when it was not visited before
* `RootsFirst m roots`   the roots are the lowest triangles of their parts of the dual graph
* `ParentStep m f t u`   triangle `u` is across the parent edge of `t`
* `Grown.parent_chain`   from every triangle such steps lead to the root of its tree
* `Spans m f`            the trees of `f` span the parts of the dual graph
* `Spans.roots_eq`, `Spans.size_candidates_eq`   what two forests that span have in common
* `spanningForest_spans`   every field and every order gives a forest that spans

A triangle is planted after all lower ones were visited, and what is connected to these was visited
with them.  So no lower triangle is connected to a root.
-/

namespace DiskCut
open Std

namespace SpanningForest
variable {f : SpanningForest} {e : EdgeId}

/-- the parent edges of a forest -/
def parents (f : SpanningForest) : List EdgeId := f.parentEdge.toList.filterMap id

theorem mem_parents : e ∈ f.parents ↔ ∃ t : TriangleId, f.parentEdge[t]? = some (some e) := by
  unfold parents
  rw [List.mem_filterMap]
  simp only [id_eq, List.mem_iff_getElem?, Array.getElem?_toList, exists_eq_right]

theorem length_parents : f.parents.length = f.numConnections := by
  unfold parents numConnections
  rw [List.length_filterMap_eq_countP]
  rfl

theorem nodup_parents (hinj : ∀ (t u : TriangleId) (e : EdgeId),
    f.parentEdge[t]? = some (some e) → f.parentEdge[u]? = some (some e) → t = u) :
    f.parents.Nodup := by
  unfold parents
  refine List.pairwise_filterMap.mpr (List.pairwise_iff_getElem.mpr fun i j hi hj hij => ?_)
  rintro e he d hd rfl
  refine Nat.ne_of_lt hij (hinj i j e ?_ ?_)
  · rw [← Array.getElem?_toList, List.getElem?_eq_getElem hi]
    exact congrArg some he
  · rw [← Array.getElem?_toList, List.getElem?_eq_getElem hj]
    exact congrArg some hd

end SpanningForest

namespace Mesh
variable {α : Type}

/-! ## a tree grows without a new root -/

section
variable [Scalar α] [Extended α] {m : Mesh α} {s s' : Growth α} {keys : Array (Rank α)}
  {e : EdgeId} {t : TriangleId}

theorem roots_enter (hok : Growth.enter keys s t = .ok s') : s'.roots = s.roots := by
  obtain ⟨key, _, hok⟩ := bind_eq_ok_iff.mp hok
  rw [pure_eq_ok_iff] at hok
  exact hok ▸ rfl

theorem roots_reach (hok : Growth.reach keys e s t = .ok s') : s'.roots = s.roots := by
  obtain ⟨seen, _, hok⟩ := bind_eq_ok_iff.mp hok
  cases seen with
  | true =>
    rw [if_pos rfl, pure_eq_ok_iff] at hok
    exact hok ▸ rfl
  | false =>
    obtain ⟨visited, _, hok⟩ := bind_eq_ok_iff.mp hok
    obtain ⟨parentEdge, _, hok⟩ := bind_eq_ok_iff.mp hok
    have hroots := roots_enter hok
    exact hroots

theorem roots_cross (hok : Growth.cross m keys s e = .ok s') : s'.roots = s.roots := by
  obtain ⟨feature, _, hok⟩ := bind_eq_ok_iff.mp hok
  cases feature with
  | true =>
    rw [if_pos rfl, pure_eq_ok_iff] at hok
    exact hok ▸ rfl
  | false =>
    obtain ⟨ts, _, hok⟩ := bind_eq_ok_iff.mp hok
    exact foldlM_invariant (P := fun x => x.roots = s.roots)
      (fun x t next _ hx hnext => (roots_reach hnext).trans hx) rfl hok

theorem roots_step (hok : Growth.step m keys s = .ok (some s')) : s'.roots = s.roots := by
  unfold Growth.step at hok
  split at hok
  · cases hok
  · obtain ⟨sides, _, hok⟩ := bind_eq_ok_iff.mp hok
    obtain ⟨grown, hgrown, hok⟩ := bind_eq_ok_iff.mp hok
    rw [pure_eq_ok_iff] at hok
    obtain rfl := Option.some.inj hok
    exact foldlM_invariant (P := fun x => x.roots = s.roots)
      (fun x e next _ hx hnext => (roots_cross hnext).trans hx) rfl hgrown

/-- a triangle is a new root when it was not visited -/
theorem plant_roots (hok : Growth.plant m keys s t = .ok s') :
    s.visited[t]? = some true ∧ s'.roots = s.roots ∨
      s.visited[t]? = some false ∧ s'.roots = s.roots ++ [t] := by
  obtain ⟨seen, hseen, hok⟩ := bind_eq_ok_iff.mp hok
  have hseen := fetch_eq_ok_iff.mp hseen
  cases seen with
  | true =>
    rw [if_pos rfl, pure_eq_ok_iff] at hok
    exact .inl ⟨hseen, hok ▸ rfl⟩
  | false =>
    obtain ⟨visited, _, hok⟩ := bind_eq_ok_iff.mp hok
    obtain ⟨planted, hplanted, hok⟩ := bind_eq_ok_iff.mp hok
    refine .inr ⟨hseen, ?_⟩
    exact (repeatWhile_invariant (P := fun x => x.roots = s.roots ++ [t])
      (fun x next hx hnext => (roots_step hnext).trans hx) (roots_enter hplanted) hok).1

end

/-! ## roots come first -/

/-- the roots are in increasing order, each the lowest triangle of its part of the dual graph -/
structure RootsFirst (m : Mesh α) (roots : List TriangleId) : Prop where
  sorted : roots.Pairwise (· < ·)
  lowest : ∀ t ∈ roots, ∀ u, Relation.ReflTransGen m.Dual t u → t ≤ u

section
variable {m : Mesh α} {h : List Visit} {roots : List TriangleId} {t u : TriangleId}

/-- what is connected to a visited triangle was visited, when no tree can grow further -/
theorem Closed.seen (hclosed : m.Closed h) (ht : Seen h t)
    (hpath : Relation.ReflTransGen m.Dual t u) : Seen h u := by
  induction hpath with
  | refl => exact ht
  | tail _ hstep ih =>
    obtain ⟨x, hx, rfl⟩ := ih
    exact hclosed x hx _ hstep

/-- what comes before a number in a range is what is less -/
theorem mem_of_range_eq {n t : Nat} {pre post : List Nat} (h : List.range n = pre ++ t :: post)
    (u : Nat) : u ∈ pre ↔ u < t := by
  have hsorted : (pre ++ t :: post).Pairwise (· < ·) := h ▸ List.pairwise_lt_range
  obtain ⟨_, hrest, hbefore⟩ := List.pairwise_append.mp hsorted
  have ht : t < n := List.mem_range.mp (by rw [h]; simp)
  refine ⟨fun hu => hbefore u hu t List.mem_cons_self, fun hu => ?_⟩
  have hmem : u ∈ pre ++ t :: post := by
    rw [← h, List.mem_range]
    omega
  simp only [List.mem_append, List.mem_cons] at hmem
  rcases hmem with hu' | rfl | hu'
  · exact hu'
  · exact absurd hu (Nat.lt_irrefl _)
  · have hlt := (List.pairwise_cons.mp hrest).1 u hu'
    omega

/-- a root is the lowest of its part when all lower triangles were visited and it was not -/
theorem RootsFirst.plant (hroots : m.RootsFirst roots) (hlt : ∀ u ∈ roots, u < t)
    (hclosed : m.Closed h) (hseen : ∀ u < t, Seen h u) (hnew : ¬ Seen h t) :
    m.RootsFirst (roots ++ [t]) := by
  refine ⟨?_, fun r hr u hpath => ?_⟩
  · rw [List.pairwise_append]
    refine ⟨hroots.sorted, List.pairwise_singleton _ _, fun r hr u hu => ?_⟩
    rw [List.mem_singleton.mp hu]
    exact hlt r hr
  · rcases List.mem_append.mp hr with hr | hr
    · exact hroots.lowest r hr u hpath
    · obtain rfl := List.mem_singleton.mp hr
      by_contra hlt
      have hback := Relation.ReflTransGen.stdSymm.symm _ _ hpath
      exact hnew (hclosed.seen (hseen u (Nat.lt_of_not_le hlt)) hback)

variable [Scalar α] [Extended α] {C : EdgeId → Prop} {s last : Growth α} {keys : Array (Rank α)}

theorem Rested.rootsFirst (hs : Rested m C [] s) (fit : m.Fitted)
    (hkeys : keys.size = m.triangles.size) (hstart : s.roots = [])
    (hok : (List.range m.triangles.size).foldlM (Growth.plant m keys) s = .ok last) :
    m.RootsFirst last.roots := by
  let P : List TriangleId → Growth α → Prop := fun pre s =>
    (∃ h, Rested m C h s ∧ ∀ u ∈ pre, Seen h u) ∧ m.RootsFirst s.roots ∧ ∀ u ∈ s.roots, u ∈ pre
  have keep : ∀ pre t post s next, List.range m.triangles.size = pre ++ t :: post → P pre s →
      Growth.plant m keys s t = .ok next → P (pre ++ [t]) next := by
    rintro pre t post s next hpre ⟨⟨h, hs, hseen⟩, hroots, hmem⟩ hnext
    have hbefore := mem_of_range_eq hpre
    have ht : t < m.triangles.size := List.mem_range.mp (by rw [hpre]; simp)
    obtain ⟨h', next', hnext', hs', hkept, hnew⟩ := hs.plant fit hkeys ht
    rw [hnext] at hnext'
    obtain rfl := Except.ok.inj hnext'
    refine ⟨⟨h', hs', fun u hu => ?_⟩, ?_⟩
    · rcases List.mem_append.mp hu with hu | hu
      · exact hkept u (hseen u hu)
      · rw [List.mem_singleton.mp hu]
        exact hnew
    · rcases plant_roots hnext with ⟨_, hsame⟩ | ⟨hunseen, hmore⟩
      · rw [hsame]
        exact ⟨hroots, fun u hu => List.mem_append_left _ (hmem u hu)⟩
      · rw [hmore]
        have hnot : ¬ Seen h t := by
          intro hseen
          rw [(hs.visited t).mpr hseen] at hunseen
          cases hunseen
        refine ⟨?_, fun u hu => ?_⟩
        · exact hroots.plant (fun u hu => (hbefore u).mp (hmem u hu)) hs.closed
            (fun u hu => hseen u ((hbefore u).mpr hu)) hnot
        · exact (List.mem_append.mp hu).elim (fun hu => List.mem_append_left _ (hmem u hu))
            (List.mem_append_right _)
  have start : P [] s := by
    refine ⟨⟨[], hs, nofun⟩, ?_, ?_⟩
    · rw [hstart]
      exact ⟨.nil, nofun⟩
    · rw [hstart]
      exact nofun
  exact (foldlM_record (P := P) keep start hok).2.1

/-- the roots of a forest are the lowest triangles of the parts of the dual graph -/
theorem rootsFirst_of_spanningForest {field : DistanceField α} {order : GrowthOrder}
    {f : SpanningForest} (fit : m.Fitted) (hf : m.spanningForest field order = .ok f) :
    m.RootsFirst f.roots := by
  unfold spanningForest at hf
  obtain ⟨keys, hkeys, hf⟩ := bind_eq_ok_iff.mp hf
  obtain ⟨cuttable, _, hf⟩ := bind_eq_ok_iff.mp hf
  obtain ⟨grown, hgrown, hf⟩ := bind_eq_ok_iff.mp hf
  rw [pure_eq_ok_iff] at hf
  subst hf
  have hsize : keys.toArray.size = m.triangles.size := by
    have hlen := (mapM_eq_ok_iff.mp hkeys).length_eq
    rw [List.length_range] at hlen
    exact hlen.symm
  exact (rested_start fun _ => Iff.rfl).rootsFirst fit hsize rfl hgrown

end

/-! ## parents -/

/-- triangle `u` is across the parent edge of `t` -/
def ParentStep (m : Mesh α) (f : SpanningForest) (t u : TriangleId) : Prop :=
  ∃ e, f.parentEdge[t]? = some (some e) ∧ m.Incident e u ∧ u ≠ t

section
variable {m : Mesh α} {f : SpanningForest} {h : List Visit} {e : EdgeId} {t u r : TriangleId}

/-- a triangle that was reached leads to one that was visited before it, and so on to the root -/
theorem Grown.parent_chain (hg : Grown m h)
    (hparent : ∀ x ∈ h, ∀ e, x.parent = some e → f.parentEdge[x.triangle]? = some (some e)) :
    ∀ x ∈ h, Relation.ReflTransGen (m.ParentStep f) x.triangle x.root := by
  induction hg with
  | nil => simp
  | plant _ _ _ _ ih =>
    rw [List.forall_mem_cons] at hparent ⊢
    exact ⟨.refl, ih hparent.2⟩
  | @reach h z e t _ hz _ hze _ hnew ih =>
    rw [List.forall_mem_cons] at hparent ⊢
    refine ⟨?_, ih hparent.2⟩
    have hstep : m.ParentStep f t z.triangle :=
      ⟨e, hparent.1 e rfl, hze, fun hzt => hnew ⟨z, hz, hzt⟩⟩
    exact .head hstep (ih hparent.2 z hz)

theorem Fitted.parentStep_unique (fit : m.Fitted) (hinc : ∀ (t : TriangleId) (e : EdgeId),
    f.parentEdge[t]? = some (some e) → m.Incident e t) : Relator.RightUnique (m.ParentStep f) := by
  rintro t u u' ⟨e, he, hu, hne⟩ ⟨e', he', hu', hne'⟩
  rw [he] at he'
  obtain rfl := Option.some.inj (Option.some.inj he')
  rcases fit.eq_or_eq_of_incident (hinc t e he) hu hne.symm hu' with heq | heq
  · exact absurd heq hne'
  · exact heq.symm

end

/-! ## forests that span -/

/-- the trees of the forest span the parts of the dual graph, each from its lowest triangle, and
candidates are the edges that a cut can follow and no tree crosses -/
structure Spans (m : Mesh α) (f : SpanningForest) : Prop where
  parent_size : f.parentEdge.size = m.triangles.size
  root_or_parent : ∀ t < m.triangles.size, (t ∈ f.roots ∧ f.parentEdge[t]? = some none) ∨
    (t ∉ f.roots ∧ ∃ e, f.parentEdge[t]? = some (some e))
  sorted : f.roots.Pairwise (· < ·)
  lowest : ∀ t, t ∈ f.roots ↔
    t < m.triangles.size ∧ ∀ u, Relation.ReflTransGen m.Dual t u → t ≤ u
  parent : ∀ (t : TriangleId) (e : EdgeId), f.parentEdge[t]? = some (some e) →
    m.IsPlain e ∧ m.IsInner e ∧ m.Incident e t
  chain : ∀ t < m.triangles.size, ∃ r ∈ f.roots, Relation.ReflTransGen m.Dual t r ∧
    ∀ u, Relation.ReflTransGen (m.ParentStep f) t u → Relation.ReflTransGen (m.ParentStep f) u r
  injective : ∀ (t u : TriangleId) (e : EdgeId), f.parentEdge[t]? = some (some e) →
    f.parentEdge[u]? = some (some e) → t = u
  candidates : ∀ e, e ∈ f.candidates ↔
    (m.IsFeature e ∨ m.IsInner e) ∧ ∀ t : TriangleId, f.parentEdge[t]? ≠ some (some e)
  count : f.numConnections + f.numComponents = m.triangles.size

section
variable {m : Mesh α} {f f' : SpanningForest} {h : List Visit} {e : EdgeId} {t : TriangleId}

namespace Spanning
variable (hs : m.Spanning f h) (fit : m.Fitted)
include hs

theorem isParent_iff : IsParent h e ↔ ∃ t : TriangleId, f.parentEdge[t]? = some (some e) := by
  refine ⟨fun ⟨x, hx, hxe⟩ => ?_, fun ⟨t, ht⟩ => ?_⟩
  · exact ⟨x.triangle, (hs.parent _ e).mpr ⟨x, hx, rfl, hxe⟩⟩
  · obtain ⟨x, hx, _, hxe⟩ := (hs.parent t e).mp ht
    exact ⟨x, hx, hxe⟩

/-- a visit says what is entered for its triangle -/
theorem parentEdge_eq {x : Visit} (hx : x ∈ h) (hlt : x.triangle < m.triangles.size) :
    f.parentEdge[x.triangle]? = some x.parent := by
  have hsize : x.triangle < f.parentEdge.size := hs.parent_size.symm ▸ hlt
  have hentry := Array.getElem?_eq_getElem hsize
  cases hxe : x.parent with
  | some e => exact (hs.parent _ e).mpr ⟨x, hx, rfl, hxe⟩
  | none =>
    cases he : f.parentEdge[x.triangle] with
    | none => rw [hentry, he]
    | some e =>
      rw [he] at hentry
      obtain ⟨y, hy, hyx, hye⟩ := (hs.parent _ e).mp hentry
      rw [hs.grown.eq_of_triangle hy hx hyx, hxe] at hye
      cases hye

include fit

theorem injective {u : TriangleId} (ht : f.parentEdge[t]? = some (some e))
    (hu : f.parentEdge[u]? = some (some e)) : t = u := by
  obtain ⟨x, hx, rfl, hxe⟩ := (hs.parent t e).mp ht
  obtain ⟨y, hy, rfl, hye⟩ := (hs.parent u e).mp hu
  rw [hs.grown.parent_unique fit x hx y hy e hxe hye]

/-- each triangle but the roots is reached through an edge of its own -/
theorem count : f.numConnections + f.numComponents = m.triangles.size := by
  have hperm : f.parents.Perm (h.filterMap Visit.parent) := by
    refine (List.perm_ext_iff_of_nodup (f.nodup_parents fun _ _ _ => hs.injective fit)
      (hs.grown.nodup_parents fit)).mpr fun e => ?_
    rw [SpanningForest.mem_parents, ← hs.isParent_iff, List.mem_filterMap]
    rfl
  have hlen := length_parents h
  rw [← hperm.length_eq, SpanningForest.length_parents, hs.length_roots, hs.length_visits fit]
    at hlen
  exact hlen

theorem parent_spec (ht : f.parentEdge[t]? = some (some e)) :
    m.IsPlain e ∧ m.IsInner e ∧ m.Incident e t := by
  obtain ⟨x, hx, rfl, hxe⟩ := (hs.parent t e).mp ht
  obtain ⟨hplain, hinc, _⟩ := hs.grown.exists_parent x hx e hxe
  exact ⟨hplain, hs.grown.isInner_of_isParent fit ⟨x, hx, hxe⟩, hinc⟩

omit fit in
theorem triangle_mem_roots {x : Visit} (hx : x ∈ h) : x.triangle ∈ f.roots ↔ x.parent = none := by
  rw [hs.mem_roots]
  refine ⟨fun ⟨y, hy, hnone, hyx⟩ => ?_, fun hnone => ⟨x, hx, hnone, rfl⟩⟩
  rwa [← hs.grown.eq_of_triangle hy hx hyx]

omit fit in
theorem root_mem_roots {x : Visit} (hx : x ∈ h) : x.root ∈ f.roots := by
  obtain ⟨y, hy, hyx, _, hnone⟩ := hs.grown.exists_root x hx
  exact hs.mem_roots.mpr ⟨y, hy, hnone, hyx⟩

/-- there is no way on from a root -/
theorem eq_of_root_chain {u : TriangleId} (ht : t ∈ f.roots)
    (hchain : Relation.ReflTransGen (m.ParentStep f) t u) : u = t := by
  obtain ⟨x, hx, hnone, rfl⟩ := hs.mem_roots.mp ht
  rcases Relation.ReflTransGen.cases_head hchain with heq | ⟨_, ⟨e, he, _⟩, _⟩
  · exact heq.symm
  · rw [hs.parentEdge_eq hx (hs.grown.lt_size fit x hx), hnone] at he
    cases he

/-- following parents ends at the root, wherever it starts from -/
theorem chain_root {x : Visit} (hx : x ∈ h) {u : TriangleId}
    (hu : Relation.ReflTransGen (m.ParentStep f) x.triangle u) :
    Relation.ReflTransGen (m.ParentStep f) u x.root := by
  have hchain := hs.grown.parent_chain
    (fun y hy e hye => (hs.parent _ e).mpr ⟨y, hy, rfl, hye⟩) x hx
  have hunique := fit.parentStep_unique fun t e he => (hs.parent_spec fit he).2.2
  rcases Relation.ReflTransGen.total_of_right_unique hunique hu hchain with hur | hru
  · exact hur
  · rw [hs.eq_of_root_chain fit (hs.root_mem_roots hx) hru]

theorem spans (hroots : m.RootsFirst f.roots) : m.Spans f where
  parent_size := hs.parent_size
  root_or_parent := by
    intro t ht
    obtain ⟨x, hx, rfl⟩ := hs.seen t ht
    rw [hs.triangle_mem_roots hx, hs.parentEdge_eq hx ht]
    cases x.parent with
    | none => exact .inl ⟨rfl, rfl⟩
    | some e => exact .inr ⟨nofun, e, rfl⟩
  sorted := hroots.sorted
  lowest := by
    intro t
    refine ⟨fun ht => ?_, fun ⟨ht, hlow⟩ => ?_⟩
    · obtain ⟨x, hx, _, rfl⟩ := hs.mem_roots.mp ht
      exact ⟨hs.grown.lt_size fit x hx, hroots.lowest _ ht⟩
    · obtain ⟨x, hx, rfl⟩ := hs.seen t ht
      have hpath := hs.grown.dual_root x hx
      have hmem := hs.root_mem_roots hx
      have hup := hlow _ (Relation.ReflTransGen.stdSymm.symm _ _ hpath)
      rwa [Nat.le_antisymm hup (hroots.lowest _ hmem _ hpath)]
  parent := fun _ _ => hs.parent_spec fit
  chain := by
    intro t ht
    obtain ⟨x, hx, rfl⟩ := hs.seen t ht
    have hpath := Relation.ReflTransGen.stdSymm.symm _ _ (hs.grown.dual_root x hx)
    exact ⟨_, hs.root_mem_roots hx, hpath, fun u hu => hs.chain_root fit hx hu⟩
  injective := fun _ _ _ => hs.injective fit
  candidates := by
    intro e
    rw [hs.candidates, hs.isParent_iff, not_exists]
  count := hs.count fit

end Spanning

/-! ## what all forests of a mesh have in common -/

namespace Spans
variable (hf : m.Spans f) (hf' : m.Spans f')
include hf

theorem mem_candidates_or_parents : e ∈ f.candidates.toList ++ f.parents ↔
    m.IsFeature e ∨ m.IsInner e := by
  rw [List.mem_append, ExtTreeSet.mem_toList, hf.candidates, SpanningForest.mem_parents]
  refine ⟨?_, fun hkind => ?_⟩
  · rintro (⟨hkind, _⟩ | ⟨t, ht⟩)
    · exact hkind
    · exact .inr (hf.parent t e ht).2.1
  · by_cases hparent : ∃ t : TriangleId, f.parentEdge[t]? = some (some e)
    · exact .inr hparent
    · exact .inl ⟨hkind, not_exists.mp hparent⟩

theorem nodup_candidates_parents : (f.candidates.toList ++ f.parents).Nodup := by
  refine List.nodup_append.mpr ⟨nodup_toList _, f.nodup_parents hf.injective, ?_⟩
  rintro e he d hd rfl
  obtain ⟨t, ht⟩ := SpanningForest.mem_parents.mp hd
  exact ((hf.candidates e).mp (ExtTreeSet.mem_toList.mp he)).2 t ht

include hf'

theorem roots_eq : f.roots = f'.roots :=
  hf.sorted.eq_of_mem_iff hf'.sorted fun t => (hf.lowest t).trans (hf'.lowest t).symm

theorem numComponents_eq : f.numComponents = f'.numComponents :=
  congrArg List.length (hf.roots_eq hf')

theorem size_candidates_eq : f.candidates.size = f'.candidates.size := by
  have hperm := (List.perm_ext_iff_of_nodup hf.nodup_candidates_parents
    hf'.nodup_candidates_parents).mpr fun e =>
      hf.mem_candidates_or_parents.trans hf'.mem_candidates_or_parents.symm
  have hlen := hperm.length_eq
  simp only [List.length_append, ExtTreeSet.length_toList, SpanningForest.length_parents] at hlen
  have hcount := hf.count
  have hcount' := hf'.count
  have hcomponents := hf.numComponents_eq hf'
  omega

end Spans

/-- every field with a distance for each vertex of a valid mesh, and each order, gives a forest that
spans the mesh; how many trees, from which roots, and the number of candidates depend on neither -/
theorem spanningForest_spans [Scalar α] [Extended α] (valid : m.Valid) {field : DistanceField α}
    (hfield : field.distances.size = m.vertices.size) (order : GrowthOrder) :
    ∃ f, m.spanningForest field order = .ok f ∧ m.Spans f ∧
      ∀ (field' : DistanceField α) (order' : GrowthOrder),
        field'.distances.size = m.vertices.size →
        ∃ f', m.spanningForest field' order' = .ok f' ∧ f'.numComponents = f.numComponents ∧
          f'.roots = f.roots ∧ f'.candidates.size = f.candidates.size := by
  have fit := valid.sound.toFitted
  have spans : ∀ (field : DistanceField α) (order : GrowthOrder),
      field.distances.size = m.vertices.size →
      ∃ f, m.spanningForest field order = .ok f ∧ m.Spans f := by
    intro field order hfield
    obtain ⟨f, h, hok, hs⟩ := fit.spanningForest_ok hfield order
    exact ⟨f, hok, hs.spans fit (rootsFirst_of_spanningForest fit hok)⟩
  obtain ⟨f, hok, hf⟩ := spans field order hfield
  refine ⟨f, hok, hf, fun field' order' hfield' => ?_⟩
  obtain ⟨f', hok', hf'⟩ := spans field' order' hfield'
  exact ⟨f', hok', hf'.numComponents_eq hf, hf'.roots_eq hf, hf'.size_candidates_eq hf⟩

end

/-! ## a field without sense -/

/-- a feature from vertex 1 to vertex 4 -/
def braced (m : Mesh Float) : Mesh Float := (m.insertFeatureEdge 1 4 none).1

/-- distances of which one is no number and two are infinite -/
def strangeField : DistanceField Float := ⟨#[0.0 / 0.0, 1.0 / 0.0, 2.0, -1.0 / 0.0, 0.5], 1⟩

theorem exists_braced : ∃ m f, threeTriangles.result = .ok m ∧ (braced m).Valid ∧
    strangeField.distances.size = (braced m).vertices.size ∧
    (braced m).spanningForest strangeField .farthestFirst = .ok f ∧ f.roots = [0, 1] := by
  have htest : yields threeTriangles.result (fun m => (braced m).passesValid &&
      strangeField.distances.size == (braced m).vertices.size &&
        yields ((braced m).spanningForest strangeField .farthestFirst) fun f =>
          f.roots == [0, 1]) = true := by decide +kernel
  obtain ⟨m, hm, htest⟩ := exists_of_yields htest
  simp only [Bool.and_eq_true, beq_iff_eq] at htest
  obtain ⟨⟨hpasses, hsize⟩, htest⟩ := htest
  obtain ⟨f, hf, hroots⟩ := exists_of_yields htest
  have edited : Edited (braced m) := .insertFeatureEdge _ _ _ (.obtained (.ofTriangles hm))
  exact ⟨m, f, hm, edited.valid hpasses, hsize, hf, beq_iff_eq.mp hroots⟩

theorem spans_braced : ∃ m f, threeTriangles.result = .ok m ∧
    (braced m).spanningForest strangeField .farthestFirst = .ok f ∧ f.roots = [0, 1] ∧
    (braced m).Spans f ∧ ∀ (field : DistanceField Float) (order : GrowthOrder),
      field.distances.size = (braced m).vertices.size →
      ∃ f', (braced m).spanningForest field order = .ok f' ∧
        f'.numComponents = f.numComponents ∧ f'.roots = f.roots ∧
        f'.candidates.size = f.candidates.size := by
  obtain ⟨m, f, hm, valid, hsize, hf, hroots⟩ := exists_braced
  obtain ⟨f', hf', hspans, hall⟩ := spanningForest_spans valid hsize .farthestFirst
  rw [hf] at hf'
  obtain rfl := Except.ok.inj hf'
  exact ⟨m, f, hm, hf, hroots, hspans, hall⟩

end Mesh
end DiskCut
