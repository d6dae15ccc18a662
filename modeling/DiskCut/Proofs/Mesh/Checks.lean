import DiskCut.Mesh.Assemble
import DiskCut.Proofs.Mesh.Sides

/-!
# Checks of index lists

* `FirstWithout P xs i x`   `x`, at place `i`, is the first member of `xs` that lacks the property `P`
* `place_cases`             two places of one list compared
* `forM_zipIdx_cases`       a check of one member after the other finds that one
* `Acceptable`              index lists that describe an edge-manifold with its feature segments
* `Refused`                 the first thing that is wrong with other index lists, stage by stage
* `checkInput_cases`        what the checks before the topology find

The specification reads the lists of triangles and lines only; it knows no mesh.
-/

namespace DiskCut
open Std

/-! ## first members without a property -/

/-- `x`, at place `i`, is the first member of `xs` that lacks the property `P` -/
def FirstWithout {β : Type} (P : β → Prop) (xs : List β) (i : Nat) (x : β) : Prop :=
  ∃ before after, xs = before ++ x :: after ∧ before.length = i ∧ (∀ y ∈ before, P y) ∧ ¬ P x

section
variable {β : Type} {P : β → Prop} {xs : List β} {i j : Nat} {x y : β}

theorem FirstWithout.getElem? (h : FirstWithout P xs i x) : xs[i]? = some x := by
  obtain ⟨before, after, rfl, rfl, _⟩ := h
  rw [List.getElem?_append_right (Nat.le_refl _), Nat.sub_self]
  rfl

theorem FirstWithout.mem (h : FirstWithout P xs i x) : x ∈ xs := List.mem_of_getElem? h.getElem?

theorem FirstWithout.lacks (h : FirstWithout P xs i x) : ¬ P x := by
  obtain ⟨_, _, _, _, _, hx⟩ := h
  exact hx

theorem FirstWithout.not_all (h : FirstWithout P xs i x) : ¬ ∀ y ∈ xs, P y := by
  intro hall
  exact h.lacks (hall x h.mem)

theorem FirstWithout.cons (hx : P x) (h : FirstWithout P xs i y) :
    FirstWithout P (x :: xs) (i + 1) y := by
  obtain ⟨before, after, rfl, rfl, hbefore, hy⟩ := h
  exact ⟨x :: before, after, rfl, rfl, List.forall_mem_cons.mpr ⟨hx, hbefore⟩, hy⟩

theorem firstWithout_head (hx : ¬ P x) : FirstWithout P (x :: xs) 0 x :=
  ⟨[], xs, rfl, rfl, by simp, hx⟩

/-- two places of one list are the same, or one is before the other -/
theorem place_cases {before after before' after' : List β}
    (h : before ++ x :: after = before' ++ y :: after') :
    (before = before' ∧ x = y) ∨ (∃ mid, before' = before ++ x :: mid) ∨
      ∃ mid, before = before' ++ y :: mid := by
  rcases List.append_eq_append_iff.mp h with ⟨mid, hsplit, hmid⟩ | ⟨mid, hsplit, hmid⟩
  · cases mid with
    | nil =>
      rw [List.append_nil] at hsplit
      exact .inl ⟨hsplit.symm, (List.cons.inj hmid).1⟩
    | cons z mid =>
      obtain ⟨rfl, _⟩ := List.cons.inj hmid
      exact .inr (.inl ⟨mid, hsplit⟩)
  · cases mid with
    | nil =>
      rw [List.append_nil] at hsplit
      exact .inl ⟨hsplit, (List.cons.inj hmid).1.symm⟩
    | cons z mid =>
      obtain ⟨rfl, _⟩ := List.cons.inj hmid
      exact .inr (.inr ⟨mid, hsplit⟩)

theorem FirstWithout.unique (h : FirstWithout P xs i x) (h' : FirstWithout P xs j y) :
    i = j ∧ x = y := by
  obtain ⟨before, after, rfl, rfl, hbefore, hx⟩ := h
  obtain ⟨before', after', heq, rfl, hbefore', hy⟩ := h'
  rcases place_cases heq with ⟨rfl, rfl⟩ | ⟨mid, rfl⟩ | ⟨mid, rfl⟩
  · exact ⟨rfl, rfl⟩
  · exact absurd (hbefore' x (by simp)) hx
  · exact absurd (hbefore y (by simp)) hy

/-- a check of numbered members passes when all of them have a property, and else gives the error of
the first one without it -/
theorem forM_zipIdx_cases {ε : Type} {f : β × Nat → Except ε Unit}
    (hP : ∀ x i, f (x, i) = .ok () ↔ P x) (xs : List β) (n : Nat) :
    ((xs.zipIdx n).forM f = .ok () ∧ ∀ x ∈ xs, P x) ∨
    ∃ i x cause, FirstWithout P xs i x ∧ f (x, n + i) = .error cause ∧
      (xs.zipIdx n).forM f = .error cause := by
  induction xs generalizing n with
  | nil => exact .inl ⟨rfl, by simp⟩
  | cons x xs ih =>
    rw [List.zipIdx_cons, List.forM_eq_forM, List.forM_cons]
    cases hx : f (x, n) with
    | error cause =>
      have hno : ¬ P x := by
        rw [← hP x n, hx]
        exact nofun
      exact .inr ⟨0, x, cause, firstWithout_head hno, hx, rfl⟩
    | ok u =>
      have hyes := (hP x n).mp hx
      rcases ih (n + 1) with ⟨hall, hrest⟩ | ⟨i, y, cause, hfirst, hy, herr⟩
      · exact .inl ⟨hall, List.forall_mem_cons.mpr ⟨hyes, hrest⟩⟩
      · rw [Nat.add_assoc, Nat.add_comm 1 i] at hy
        exact .inr ⟨i + 1, y, cause, hfirst.cons hyes, hy, herr⟩

theorem forM_zipIdx_eq_ok_iff {ε : Type} {f : β × Nat → Except ε Unit}
    (hP : ∀ x i, f (x, i) = .ok () ↔ P x) (xs : List β) :
    xs.zipIdx.forM f = .ok () ↔ ∀ x ∈ xs, P x := by
  rcases forM_zipIdx_cases hP xs 0 with ⟨hok, hall⟩ | ⟨_, _, _, hfirst, _, herr⟩
  · exact iff_of_true hok hall
  · rw [herr]
    exact iff_of_false nofun hfirst.not_all

end

/-! ## the specification -/

/-- a triangle names three different points -/
def TriangleFits (count : Nat) (vs : Triple Nat) : Prop := (∀ v ∈ vs.toList, v < count) ∧ vs.Distinct

/-- a line names points -/
def LineFits (count : Nat) (line : Line) : Prop := ∀ v ∈ [line.ends.1, line.ends.2], v < count

/-- no pair is a side of a third triangle -/
def EdgeManifold (triangles : List (Triple Nat)) : Prop :=
  ∀ k, triangles.countP (k ∈ ·.keys.toList) ≤ 2

/-- a line is a side of a triangle -/
def IsSide (triangles : List (Triple Nat)) (line : Line) : Prop :=
  ∃ vs ∈ triangles, edgeKey line.ends.1 line.ends.2 ∈ vs.keys.toList

/-- index lists that describe an edge-manifold with its feature segments -/
structure Acceptable (count : Nat) (triangles : List (Triple Nat)) (lines : List Line) : Prop where
  triangle : ∀ vs ∈ triangles, TriangleFits count vs
  line : ∀ line ∈ lines, LineFits count line
  manifold : EdgeManifold triangles
  side : ∀ line ∈ lines, IsSide triangles line

/-- what is wrong first: a corner that is no point or else stands twice, triangle by triangle; an
end of a line that is no point; a third use of a side; a line that is no side -/
inductive Refused (count : Nat) (triangles : List (Triple Nat)) (lines : List Line) :
    MeshError → Prop where
  | corner {t i v : Nat} {vs : Triple Nat} : FirstWithout (TriangleFits count) triangles t vs →
      FirstWithout (· < count) vs.toList i v → Refused count triangles lines (.invalidVertexIndex t v)
  | degenerate {t : Nat} {vs : Triple Nat} : FirstWithout (TriangleFits count) triangles t vs →
      (∀ v ∈ vs.toList, v < count) → Refused count triangles lines (.degenerateTriangle t)
  | lineEnd {s i v : Nat} {line : Line} : (∀ vs ∈ triangles, TriangleFits count vs) →
      FirstWithout (LineFits count) lines s line →
      FirstWithout (· < count) [line.ends.1, line.ends.2] i v →
      Refused count triangles lines (.invalidVertexIndex s v)
  | thirdUse {before after : List (VertexId × VertexId)} {k : VertexId × VertexId} :
      (∀ vs ∈ triangles, TriangleFits count vs) → (∀ line ∈ lines, LineFits count line) →
      sideScan triangles = before ++ k :: after → before.count k = 2 →
      (∀ k', before.count k' ≤ 2) → Refused count triangles lines (.nonManifoldEdge k.1 k.2)
  | noSide {s : Nat} {line : Line} :
      (∀ vs ∈ triangles, TriangleFits count vs) → (∀ line ∈ lines, LineFits count line) →
      EdgeManifold triangles → FirstWithout (IsSide triangles) lines s line →
      Refused count triangles lines (.featureEdgeNotFound line.ends.1 line.ends.2)

namespace Mesh

/-! ## what the checks find -/

theorem checkIndices_cases (count element : Nat) (indices : List Nat) :
    (checkIndices count element indices = .ok () ∧ ∀ v ∈ indices, v < count) ∨
    ∃ i v, FirstWithout (· < count) indices i v ∧
      checkIndices count element indices = .error (.invalidVertexIndex element v) := by
  unfold checkIndices
  cases hfind : indices.find? (count ≤ ·) with
  | none =>
    refine .inl ⟨rfl, fun v hv => ?_⟩
    simpa using List.find?_eq_none.mp hfind v hv
  | some v =>
    obtain ⟨hv, before, after, rfl, hbefore⟩ := List.find?_eq_some_iff_append.mp hfind
    refine .inr ⟨before.length, v, ⟨before, after, rfl, rfl, fun u hu => ?_, ?_⟩, rfl⟩
    · simpa using hbefore u hu
    · exact Nat.not_lt.mpr (of_decide_eq_true hv)

theorem checkIndices_eq_ok_iff (count element : Nat) (indices : List Nat) :
    checkIndices count element indices = .ok () ↔ ∀ v ∈ indices, v < count := by
  rcases checkIndices_cases count element indices with ⟨hok, hlt⟩ | ⟨i, v, hfirst, herr⟩
  · exact iff_of_true hok hlt
  · rw [herr]
    exact iff_of_false nofun hfirst.not_all

theorem checkIndices_stopped {count element : Nat} {indices : List Nat} {cause : MeshError}
    (h : checkIndices count element indices = .error cause) :
    ∃ v ∈ indices, count ≤ v ∧ cause = .invalidVertexIndex element v := by
  rcases checkIndices_cases count element indices with ⟨hok, _⟩ | ⟨i, v, hfirst, herr⟩
  · rw [hok] at h
    cases h
  · rw [herr] at h
    exact ⟨v, hfirst.mem, Nat.le_of_not_lt hfirst.lacks, (Except.error.inj h).symm⟩

theorem checkTriangle_cases (count : Nat) (vs : Triple Nat) (t : Nat) :
    (checkTriangle count (vs, t) = .ok () ∧ TriangleFits count vs) ∨
    (∃ i v, FirstWithout (· < count) vs.toList i v ∧
      checkTriangle count (vs, t) = .error (.invalidVertexIndex t v)) ∨
    ((∀ v ∈ vs.toList, v < count) ∧ ¬ vs.Distinct ∧
      checkTriangle count (vs, t) = .error (.degenerateTriangle t)) := by
  unfold checkTriangle
  rcases checkIndices_cases count t vs.toList with ⟨hok, hlt⟩ | ⟨i, v, hfirst, herr⟩
  · by_cases hdistinct : vs.Distinct
    · refine .inl ⟨?_, hlt, hdistinct⟩
      simp only [hok, if_pos hdistinct, bind, Except.bind]
      rfl
    · refine .inr (.inr ⟨hlt, hdistinct, ?_⟩)
      simp only [hok, if_neg hdistinct, bind, Except.bind]
  · refine .inr (.inl ⟨i, v, hfirst, ?_⟩)
    simp only [herr, bind, Except.bind]

theorem checkTriangle_eq_ok_iff (count : Nat) (vs : Triple Nat) (t : Nat) :
    checkTriangle count (vs, t) = .ok () ↔ TriangleFits count vs := by
  rcases checkTriangle_cases count vs t with ⟨hok, hfits⟩ | ⟨i, v, hfirst, herr⟩ |
    ⟨_, hdegenerate, herr⟩
  · exact iff_of_true hok hfits
  · rw [herr]
    exact iff_of_false nofun fun hfits => hfirst.not_all hfits.1
  · rw [herr]
    exact iff_of_false nofun fun hfits => hdegenerate hfits.2

theorem checkLine_eq_ok_iff (count : Nat) (line : Line) (s : Nat) :
    checkLine count (line, s) = .ok () ↔ LineFits count line :=
  checkIndices_eq_ok_iff count s [line.ends.1, line.ends.2]

/-- the checks pass, or find what is wrong first -/
theorem checkInput_cases (count : Nat) (triangles : List (Triple Nat)) (lines : List Line) :
    (checkInput count triangles lines = .ok () ∧ (∀ vs ∈ triangles, TriangleFits count vs) ∧
      ∀ line ∈ lines, LineFits count line) ∨
    ∃ cause, checkInput count triangles lines = .error cause ∧
      Refused count triangles lines cause := by
  unfold checkInput
  rcases forM_zipIdx_cases (checkTriangle_eq_ok_iff count) triangles 0 with ⟨hok, hfits⟩ |
    ⟨t, vs, cause, hfirst, hcause, herr⟩
  · rcases forM_zipIdx_cases (checkLine_eq_ok_iff count) lines 0 with ⟨hok', hfits'⟩ |
      ⟨s, line, cause, hfirst, hcause, herr⟩
    · exact .inl ⟨bind_eq_ok_iff.mpr ⟨(), hok, hok'⟩, hfits, hfits'⟩
    · refine .inr ⟨cause, bind_eq_error_iff.mpr (.inr ⟨(), hok, herr⟩), ?_⟩
      rw [Nat.zero_add] at hcause
      rcases checkIndices_cases count s [line.ends.1, line.ends.2] with ⟨_, hlt⟩ |
        ⟨i, v, hend, hcause'⟩
      · exact absurd hlt hfirst.lacks
      · unfold checkLine at hcause
        rw [hcause'] at hcause
        obtain rfl := Except.error.inj hcause
        exact .lineEnd hfits hfirst hend
  · refine .inr ⟨cause, bind_eq_error_iff.mpr (.inl herr), ?_⟩
    rw [Nat.zero_add] at hcause
    rcases checkTriangle_cases count vs t with ⟨hok, _⟩ | ⟨i, v, hcorner, hcause'⟩ |
      ⟨hlt, _, hcause'⟩
    · rw [hok] at hcause
      cases hcause
    · rw [hcause'] at hcause
      obtain rfl := Except.error.inj hcause
      exact .corner hfirst hcorner
    · rw [hcause'] at hcause
      obtain rfl := Except.error.inj hcause
      exact .degenerate hfirst hlt

end Mesh
end DiskCut
