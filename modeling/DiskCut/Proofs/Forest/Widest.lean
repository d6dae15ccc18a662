import DiskCut.Proofs.Binary64.Signs
import DiskCut.Proofs.Forest.Fences
import Mathlib.Data.List.Chain

/-!
# Widest ways

A forest that grows best first reaches every triangle by a widest way: no other way from the root
in the dual graph keeps to higher keys.

* `Rank.smallest?`, `Rank.AtMost`   the narrowest place of a way; a way without a triangle between
                           its ends has none, and counts as widest
* `GrowthOrder.NoWorse`    what the keys say of two means
* `Between R t way u`      the triangles `way` lie between `t` and `u` along `R`
* `TreeWay m f r way t`    the way from the root `r` to `t` in the forest `f`
* `exists_treeWay`         for each triangle on it every other way has one with no higher key
* `spanningForest_widest`  the way through the tree is a widest one
-/

namespace DiskCut
open Std

/-! ## the narrowest place -/

namespace Rank
variable {α : Type} [Extended α]

/-- the smallest of some ranks -/
def smallest? : List (Rank α) → Option (Rank α)
  | [] => none
  | k :: ks =>
    match smallest? ks with
    | none => some k
    | some j => if (order k j).isLE then some k else some j

/-- the first rank is at most the second, where no rank is more than every rank -/
def AtMost : Option (Rank α) → Option (Rank α) → Prop
  | _, none => True
  | none, some _ => False
  | some j, some k => (order j k).isLE

variable {ks js : List (Rank α)} {k : Rank α}

theorem smallest?_mem (h : smallest? ks = some k) : k ∈ ks := by
  induction ks generalizing k with
  | nil => cases h
  | cons j ks ih =>
    unfold smallest? at h
    split at h
    · exact Option.some.inj h ▸ List.mem_cons_self
    · rename_i i hi
      split at h
      · exact Option.some.inj h ▸ List.mem_cons_self
      · exact List.mem_cons_of_mem _ (Option.some.inj h ▸ ih hi)

theorem smallest?_le (h : k ∈ ks) : ∃ j, smallest? ks = some j ∧ (order j k).isLE := by
  induction ks with
  | nil => cases h
  | cons i ks ih =>
    have hself : (order i i).isLE := ReflCmp.isLE_rfl
    unfold smallest?
    cases hs : smallest? ks with
    | none =>
      rcases List.mem_cons.mp h with rfl | h
      · exact ⟨k, rfl, hself⟩
      · obtain ⟨j, hj, _⟩ := ih h
        rw [hs] at hj
        cases hj
    | some j =>
      dsimp only
      split
      · rename_i hij
        refine ⟨i, rfl, ?_⟩
        rcases List.mem_cons.mp h with rfl | h
        · exact hself
        · obtain ⟨j', hj', hle⟩ := ih h
          rw [hs] at hj'
          exact TransCmp.isLE_trans hij (Option.some.inj hj' ▸ hle)
      · rename_i hij
        refine ⟨j, rfl, ?_⟩
        rcases List.mem_cons.mp h with rfl | h
        · have hgt : order k j = .gt := by
            cases ho : order k j <;> simp [ho] at hij ⊢
          have hswap : order j k = (order k j).swap := OrientedCmp.eq_swap
          rw [hswap, hgt]
          rfl
        · obtain ⟨j', hj', hle⟩ := ih h
          rw [hs] at hj'
          exact Option.some.inj hj' ▸ hle

/-- the smallest rank is at most another when each of the others has one at most as large -/
theorem atMost_smallest? (h : ∀ k ∈ ks, ∃ j ∈ js, (order j k).isLE) :
    AtMost (smallest? js) (smallest? ks) := by
  cases hk : smallest? ks with
  | none =>
    cases smallest? js <;> trivial
  | some k =>
    obtain ⟨j, hj, hle⟩ := h k (smallest?_mem hk)
    obtain ⟨i, hi, hij⟩ := smallest?_le hj
    rw [hi]
    exact TransCmp.isLE_trans hij hle

end Rank

/-- it is no worse to pass a mean `a` than a mean `b` -/
def GrowthOrder.NoWorse {α : Type} [Extended α] (order : GrowthOrder) (a b : α) : Prop :=
  match order with
  | .farthestFirst => NoMore b a
  | .nearestFirst => NoMore a b

namespace Mesh
variable {α : Type} [Scalar α] [Extended α]

/-! ## ways through the tree -/

/-- the triangles `way` lie between `t` and `u` on a way along `R` -/
def Between (R : TriangleId → TriangleId → Prop) (t : TriangleId) (way : List TriangleId)
    (u : TriangleId) : Prop :=
  List.IsChain R (t :: (way ++ [u]))

/-- the triangles `way` lie between the root `r` and `t` in the tree -/
def TreeWay (m : Mesh α) (f : SpanningForest) (r : TriangleId) (way : List TriangleId)
    (t : TriangleId) : Prop :=
  r ∈ f.roots ∧ Between (flip (m.ParentStep f)) r way t

section
variable {R : TriangleId → TriangleId → Prop} {r r' t u : TriangleId} {way way' : List TriangleId}

theorem between_reverse : Between R t way.reverse u ↔ Between (flip R) u way t := by
  have hlist : u :: (way ++ [t]) = (t :: (way.reverse ++ [u])).reverse := by simp
  unfold Between
  rw [hlist, List.isChain_reverse]
  rfl

/-- where each step is the only one, there is one way to a place that leads no further -/
theorem Between.unique (hR : Relator.RightUnique R) (hr : ∀ u, ¬ R r u) (hr' : ∀ u, ¬ R r' u)
    (h : Between R t way r) (h' : Between R t way' r') : r' = r ∧ way' = way := by
  unfold Between at h h'
  induction way generalizing t way' with
  | nil =>
    obtain ⟨htr, _⟩ := List.isChain_cons_cons.mp h
    cases way' with
    | nil => exact ⟨hR (List.isChain_cons_cons.mp h').1 htr, rfl⟩
    | cons x way' =>
      obtain ⟨htx, hrest⟩ := List.isChain_cons_cons.mp h'
      obtain rfl := hR htx htr
      cases way' with
      | nil => exact absurd (List.isChain_cons_cons.mp hrest).1 (hr _)
      | cons y way' => exact absurd (List.isChain_cons_cons.mp hrest).1 (hr _)
  | cons x way ih =>
    obtain ⟨htx, hrest⟩ := List.isChain_cons_cons.mp h
    cases way' with
    | nil =>
      obtain rfl := hR htx (List.isChain_cons_cons.mp h').1
      cases way with
      | nil => exact absurd (List.isChain_cons_cons.mp hrest).1 (hr' _)
      | cons y way => exact absurd (List.isChain_cons_cons.mp hrest).1 (hr' _)
    | cons x' way' =>
      obtain ⟨htx', hrest'⟩ := List.isChain_cons_cons.mp h'
      obtain rfl := hR htx' htx
      obtain ⟨hrr, hways⟩ := ih hrest hrest'
      exact ⟨hrr, congrArg (x' :: ·) hways⟩

end

section
variable {m : Mesh α} {field : DistanceField α} {order : GrowthOrder} {f : SpanningForest}
  {keys : List (Rank α)} {r r' t : TriangleId} {way way' : List TriangleId}

omit [Scalar α] [Extended α] in
theorem Spans.treeWay_unique (hf : m.Spans f) (fit : m.Fitted) (h : TreeWay m f r way t)
    (h' : TreeWay m f r' way' t) : r' = r ∧ way' = way := by
  have hunique := fit.parentStep_unique fun t e he => (hf.parent t e he).2.2
  have hend : ∀ r ∈ f.roots, ∀ u, ¬ m.ParentStep f r u := by
    rintro r hr u ⟨e, he, _⟩
    rcases hf.root_or_parent r ((hf.lowest r).mp hr).1 with ⟨_, hnone⟩ | ⟨hnot, _⟩
    · rw [he] at hnone
      cases hnone
    · exact hnot hr
  have hback := between_reverse.mpr h.2
  have hback' := between_reverse.mpr h'.2
  obtain ⟨hrr, hways⟩ := hback.unique hunique (hend r h.1) (hend r' h'.1) hback'
  exact ⟨hrr, List.reverse_injective hways⟩

omit [Scalar α] [Extended α] in
theorem Between.lt_size (fit : m.Fitted) (h : Between m.Dual r way t) :
    ∀ q ∈ way, q < m.triangles.size := by
  unfold Between at h
  induction way generalizing r with
  | nil => exact nofun
  | cons q way ih =>
    obtain ⟨⟨_, _, _, hinc⟩, hrest⟩ := List.isChain_cons_cons.mp h
    rw [List.forall_mem_cons]
    exact ⟨fit.lt_of_incident hinc, ih hrest⟩

omit [Scalar α] [Extended α] in
/-- a way through the tree is a way in the dual graph -/
theorem Spans.dual_of_treeWay (hf : m.Spans f) (h : TreeWay m f r way t) :
    Between m.Dual r way t := by
  refine List.IsChain.imp ?_ h.2
  rintro u x ⟨e, he, hinc, _⟩
  obtain ⟨hplain, _, hx⟩ := hf.parent x e he
  exact ⟨e, hplain, hinc, hx⟩

/-- on every other way there is, for each triangle on the way through the tree, one with no higher
key -/
theorem exists_treeWay (fit : m.Fitted) (hf : m.spanningForest field order = .ok f)
    (hspans : m.Spans f) (ht : t < m.triangles.size) (hroot : t ∉ f.roots) :
    ∃ r way, TreeWay m f r way t ∧ ∀ other, Between m.Dual r other t → ∀ p ∈ way,
      ∃ q ∈ other, q ≠ r ∧ q ≠ t ∧ ∃ k j, m.growthKey field order q = .ok k ∧
        m.growthKey field order p = .ok j ∧ (Rank.order k j).isLE := by
  unfold spanningForest at hf
  obtain ⟨keys, hkeys, hf⟩ := bind_eq_ok_iff.mp hf
  obtain ⟨cuttable, _, hf⟩ := bind_eq_ok_iff.mp hf
  obtain ⟨grown, hgrown, hf⟩ := bind_eq_ok_iff.mp hf
  rw [pure_eq_ok_iff] at hf
  subst hf
  have hall := mapM_eq_ok_iff.mp hkeys
  have hsize : keys.toArray.size = m.triangles.size := by
    have hlen := hall.length_eq
    rw [List.length_range] at hlen
    exact hlen.symm
  have hkey : ∀ {q : TriangleId} {k : Rank α}, keys.toArray[q]? = some k →
      m.growthKey field order q = .ok k := by
    intro q k hk
    rw [List.getElem?_toArray] at hk
    obtain ⟨x, hx, hok⟩ := exists_of_forall₂ hall.flip hk
    obtain ⟨_, rfl⟩ := List.getElem?_eq_some_iff.mp hx
    rwa [List.getElem_range] at hok
  have hstart : Fenced m keys.toArray (⟨(List.replicate m.triangles.size false).toArray,
      (List.replicate m.triangles.size none).toArray, ExtTreeSet.ofList cuttable compare, [],
      ∅⟩ : Growth α) := by
    refine ⟨fun w hw => absurd hw ExtTreeSet.not_mem_empty, fun u e he => ?_⟩
    simp [Array.getElem?_replicate] at he
  have hfenced := hstart.plantAll fit hsize (rested_start fun _ => Iff.rfl) hgrown
  obtain ⟨e, he⟩ := ((hspans.root_or_parent t ht).resolve_left fun h => hroot h.1).2
  obtain ⟨r, way, hclimb⟩ := hfenced.way t e he
  refine ⟨r, way.reverse, ⟨hclimb.root, ?_⟩, fun other hother p hp => ?_⟩
  · rw [← between_reverse, List.reverse_reverse]
    exact hclimb.chain
  · obtain ⟨V, S, hfence, hnot, _⟩ := hclimb.fence p (List.mem_reverse.mp hp)
    obtain ⟨q, hq, hqr, hqt, k, j, hk, hj, hle⟩ := hfence.crossed hnot hother
    exact ⟨q, hq, hqr, hqt, k, j, hkey hk, hkey hj, hle⟩

/-- a mean that is a number makes the key -/
theorem growthKey_of_triangleMean {a : α} (hmean : field.triangleMean m t = .ok a)
    (ha : Rank.isUndefined a = false) : m.growthKey field order t = .ok (order.key (.value a)) := by
  obtain ⟨vs, hvs, hmean⟩ := bind_eq_ok_iff.mp hmean
  obtain ⟨d₀, h₀, hmean⟩ := bind_eq_ok_iff.mp hmean
  obtain ⟨d₁, h₁, hmean⟩ := bind_eq_ok_iff.mp hmean
  obtain ⟨d₂, h₂, hmean⟩ := bind_eq_ok_iff.mp hmean
  rw [pure_eq_ok_iff] at hmean
  have hrank : Rank.ofMean d₀ d₁ d₂ = .value a := by
    unfold Rank.ofMean
    dsimp only
    rw [hmean, ha]
    rfl
  unfold growthKey
  exact bind_eq_ok_iff.mpr ⟨vs, hvs, bind_eq_ok_iff.mpr ⟨d₀, h₀, bind_eq_ok_iff.mpr ⟨d₁, h₁,
    bind_eq_ok_iff.mpr ⟨d₂, h₂, congrArg (fun k => Except.ok (order.key k)) hrank⟩⟩⟩⟩

/-- a triangle with a key has a mean -/
theorem exists_triangleMean {k : Rank α} (hk : m.growthKey field order t = .ok k) :
    ∃ a, field.triangleMean m t = .ok a := by
  obtain ⟨vs, hvs, hk⟩ := bind_eq_ok_iff.mp hk
  obtain ⟨d₀, h₀, hk⟩ := bind_eq_ok_iff.mp hk
  obtain ⟨d₁, h₁, hk⟩ := bind_eq_ok_iff.mp hk
  obtain ⟨d₂, h₂, hk⟩ := bind_eq_ok_iff.mp hk
  exact ⟨_, bind_eq_ok_iff.mpr ⟨vs, hvs, bind_eq_ok_iff.mpr ⟨d₀, h₀, bind_eq_ok_iff.mpr ⟨d₁, h₁,
    bind_eq_ok_iff.mpr ⟨d₂, h₂, rfl⟩⟩⟩⟩⟩

end

/-! ## the way through the tree is widest -/

/-- every field with a distance for each vertex of a valid mesh, and each order, gives a forest in
which there is one way to every triangle that is no root.  Of all ways in the dual graph from the
root to the triangle it has the largest smallest key; so, when all means are numbers, every other
way passes a mean that is no better. -/
theorem spanningForest_widest {m : Mesh Float} (valid : m.Valid) {field : DistanceField Float}
    (hfield : field.distances.size = m.vertices.size) (order : GrowthOrder) :
    ∃ f, m.spanningForest field order = .ok f ∧ ∀ t < m.triangles.size, t ∉ f.roots →
      ∃ r way ks, TreeWay m f r way t ∧ Between m.Dual r way t ∧
        (∀ r' way', TreeWay m f r' way' t → r' = r ∧ way' = way) ∧
        way.mapM (m.growthKey field order) = .ok ks ∧
        ∀ other, Between m.Dual r other t →
          (∃ js, other.mapM (m.growthKey field order) = .ok js ∧
            Rank.AtMost (Rank.smallest? js) (Rank.smallest? ks)) ∧
          ((∀ u a, field.triangleMean m u = .ok a → a.isNaN = false) →
            ∀ p ∈ way, ∃ q ∈ other, ∃ a b, field.triangleMean m p = .ok a ∧
              field.triangleMean m q = .ok b ∧ order.NoWorse a b) := by
  have fit := valid.sound.toFitted
  obtain ⟨f, h, hok, hs⟩ := fit.spanningForest_ok hfield order
  have hspans := hs.spans fit (rootsFirst_of_spanningForest fit hok)
  refine ⟨f, hok, fun t ht hroot => ?_⟩
  obtain ⟨r, way, htree, hwide⟩ := exists_treeWay fit hok hspans ht hroot
  have hdual := hspans.dual_of_treeWay htree
  have keysOn : ∀ {other}, Between m.Dual r other t →
      ∃ js, other.mapM (m.growthKey field order) = .ok js := fun hother =>
    mapM_total fun q hq => fit.growthKey_ok hfield order (hother.lt_size fit q hq)
  obtain ⟨ks, hks⟩ := keysOn hdual
  refine ⟨r, way, ks, htree, hdual, fun r' way' h' => hspans.treeWay_unique fit htree h', hks,
    fun other hother => ⟨?_, fun hnumbers p hp => ?_⟩⟩
  · obtain ⟨js, hjs⟩ := keysOn hother
    refine ⟨js, hjs, Rank.atMost_smallest? fun k hk => ?_⟩
    obtain ⟨p, hp, hpk⟩ := (mem_mapM_iff hks).mp hk
    obtain ⟨q, hq, _, _, j, k', hj, hk', hle⟩ := hwide other hother p hp
    rw [hpk] at hk'
    obtain rfl := Except.ok.inj hk'
    exact ⟨j, (mem_mapM_iff hjs).mpr ⟨q, hq, hj⟩, hle⟩
  · obtain ⟨q, hq, _, _, j, k, hj, hk, hle⟩ := hwide other hother p hp
    obtain ⟨a, ha⟩ := exists_triangleMean hk
    obtain ⟨b, hb⟩ := exists_triangleMean hj
    refine ⟨q, hq, a, b, ha, hb, ?_⟩
    have haN := hnumbers p a ha
    have hbN := hnumbers q b hb
    rw [growthKey_of_triangleMean ha ((Binary64.isUndefined_eq_isNaN a).trans haN)] at hk
    rw [growthKey_of_triangleMean hb ((Binary64.isUndefined_eq_isNaN b).trans hbN)] at hj
    rw [← Except.ok.inj hk, ← Except.ok.inj hj] at hle
    cases order with
    | farthestFirst => exact hle
    | nearestFirst => exact (Binary64.neg_noMore_neg hbN haN).mp hle

/-! ## two ways about a vertex -/

/-- five triangles about the vertex 0 -/
def wheel : Logged Float (Mesh Float) :=
  ofTriangles #[⟨0, 0, 0⟩, ⟨3, 0, 0⟩, ⟨1, 3, 0⟩, ⟨-2, 2, 0⟩, ⟨-2, -2, 0⟩, ⟨1, -3, 0⟩]
    [⟨0, 1, 2⟩, ⟨0, 2, 3⟩, ⟨0, 3, 4⟩, ⟨0, 4, 5⟩, ⟨0, 5, 1⟩] []

/-- distances that are small about the second triangle -/
def wheelField : DistanceField Float := ⟨#[0, 3, 0, 0, 3, 3], 1⟩

theorem exists_wheel : ∃ m f, wheel.result = .ok m ∧ m.Valid ∧
    wheelField.distances.size = m.vertices.size ∧ m.triangles.size = 5 ∧
    m.spanningForest wheelField .farthestFirst = .ok f ∧ f.roots = [0] := by
  have htest : yields wheel.result (fun m => m.passesValid &&
      wheelField.distances.size == m.vertices.size && m.triangles.size == 5 &&
        yields (m.spanningForest wheelField .farthestFirst) fun f => f.roots == [0]) = true := by
    decide +kernel
  obtain ⟨m, hm, htest⟩ := exists_of_yields htest
  simp only [Bool.and_eq_true, beq_iff_eq] at htest
  obtain ⟨⟨⟨hpasses, hsize⟩, hcount⟩, htest⟩ := htest
  obtain ⟨f, hf, hroots⟩ := exists_of_yields htest
  have edited : Edited m := .obtained (.ofTriangles hm)
  exact ⟨m, f, hm, edited.valid hpasses, hsize, hcount, hf, beq_iff_eq.mp hroots⟩

theorem widest_wheel : ∃ m f, wheel.result = .ok m ∧
    m.spanningForest wheelField .farthestFirst = .ok f ∧ f.roots = [0] ∧
    ∃ way ks, TreeWay m f 0 way 2 ∧ Between m.Dual 0 way 2 ∧
      way.mapM (m.growthKey wheelField .farthestFirst) = .ok ks ∧
      ∀ other, Between m.Dual 0 other 2 →
        ∃ js, other.mapM (m.growthKey wheelField .farthestFirst) = .ok js ∧
          Rank.AtMost (Rank.smallest? js) (Rank.smallest? ks) := by
  obtain ⟨m, f, hm, valid, hsize, hcount, hf, hroots⟩ := exists_wheel
  obtain ⟨f', hf', hall⟩ := spanningForest_widest valid hsize .farthestFirst
  rw [hf] at hf'
  obtain rfl := Except.ok.inj hf'
  obtain ⟨r, way, ks, htree, hdual, _, hks, hwide⟩ := hall 2 (by omega) (by rw [hroots]; decide)
  have hr : r = 0 := List.mem_singleton.mp (hroots ▸ htree.1)
  subst hr
  exact ⟨m, f, hm, hf, hroots, way, ks, htree, hdual, hks, fun other h => (hwide other h).1⟩

end Mesh
end DiskCut
