import DiskCut.Proofs.CutGraph.Trim
import DiskCut.Proofs.ValidMeshes

/-!
# Trimming step by step

What the arrays of a trimming say between any two of its steps, and what the next step finds there.

* `Agrees m K h s`    degrees, branches, remaining edges and stack of `s` are those of the graph that
                      the removals `h` leave
* `Prunes m K h s x`  the removal `x` takes the only edge at its leaf, and finds it at both ends
* `Trims.of_recorded` every state that the steps lead to stands where the recorded removals lead
* `trimCutGraph_agrees`  so the arrays agree with these removals in every such state

The removals of a run are those that `Trimming.removal?` reads off its states, before each step.
-/

namespace DiskCut
open Std
namespace Mesh
variable {α : Type}

/-- the steps of a trimming that lead from `start` to a state, with the removals that they make -/
abbrev TrimSteps (start : Trimming) : List Removal → Trimming → Prop :=
  Recorded Trimming.step (fun s => s.removal?.toList) start

/-- the arrays of a trimming say what the removals `h` leave of the graph -/
structure Agrees (m : Mesh α) (K : ExtTreeSet EdgeId) (h : List Removal) (s : Trimming) : Prop where
  degrees : Degrees m (m.Live K h) m.singularExtra s.degree
  branching : Branching m (fun e => m.Live K h e ∧ m.IsRemovable K e) s.branches
  remaining : ∀ e, e ∈ s.remaining ↔ e ∈ K ∧ ∀ x ∈ h, x.edge ≠ e
  removed : s.removed = h.length
  size : s.remaining.size + s.removed = K.size
  waiting : ∀ v, s.isDangling v = .ok true → v ∈ s.stack

/-- the removal `x` takes the only edge at its leaf; no degree falls below zero, and the edge is
listed at the other end -/
structure Prunes (m : Mesh α) (K : ExtTreeSet EdgeId) (h : List Removal) (s : Trimming)
    (x : Removal) : Prop where
  dangles : m.Dangles K h x.leaf x.edge
  joins : m.Joins x.edge x.leaf x.across
  leaf_degree : s.degree[x.leaf]? = some 1
  across_degree : ∃ d, s.degree[x.across]? = some (d + 1)
  found : ∃ bs, s.branches[x.across]? = some bs ∧ (x.leaf, x.edge) ∈ bs

section
variable {m : Mesh α} {K : ExtTreeSet EdgeId} {h : List Removal} {start s : Trimming}
  (fit : m.Trimmable K)
include fit

/-- what the steps keep holds in every state that they lead to -/
theorem Trims.of_recorded (hstart : Trims m K [] start)
    (hsize : start.remaining.size + start.removed = K.size) (hrun : TrimSteps start h s) :
    Trims m K h s ∧ s.remaining.size + s.removed = K.size := by
  induction hrun with
  | start => exact ⟨hstart, hsize⟩
  | next _ hstep ih =>
    obtain ⟨hs, hcount⟩ := ih
    rcases hs.step fit with ⟨_, hnone⟩ | ⟨next, hnext, hs', hsame, _⟩
    · rw [hnone] at hstep
      cases hstep
    · rw [hstep] at hnext
      cases hnext
      exact ⟨hs', hsame.trans hcount⟩

theorem Trims.agrees (hs : Trims m K h s) (hsize : s.remaining.size + s.removed = K.size) :
    m.Agrees K h s where
  degrees := hs.degrees
  branching := hs.branching
  remaining := hs.remaining
  removed := hs.removed
  size := hsize
  waiting := by
    intro v hdangling
    obtain ⟨hone, _⟩ := Trimming.isDangling_iff.mp hdangling
    have hv : v < m.vertices.size := by
      rw [← hs.degrees.size]
      exact (Array.getElem?_eq_some_iff.mp hone).1
    obtain ⟨b, hb, hiff⟩ := fit.isDangling_ok hs.degrees hs.branching hv
    rw [hdangling] at hb
    obtain ⟨e, he⟩ := hiff.mp (Except.ok.inj hb).symm
    exact hs.waiting v e he

/-- the next removal is one at a dangling end -/
theorem Trims.prunes (hs : Trims m K h s) {x : Removal} (hx : s.removal? = some x) :
    m.Prunes K h s x := by
  rcases hstack : s.stack with _ | ⟨leaf, rest⟩
  · unfold Trimming.removal? at hx
    rw [hstack] at hx
    cases hx
  obtain ⟨b, hb, hiff⟩ := fit.isDangling_ok hs.degrees hs.branching
    (hs.stack_lt leaf (by rw [hstack]; exact List.mem_cons_self))
  cases b with
  | false =>
    rw [Trimming.removal?_of_not_dangling hstack hb] at hx
    cases hx
  | true =>
    obtain ⟨e, he⟩ := hiff.mp rfl
    obtain ⟨across, _, hremoval, hjoin, _⟩ := hs.prune fit hstack hb he
    rw [hremoval] at hx
    obtain rfl := Option.some.inj hx
    have hacross := fit.lt_of_isEnd hjoin.isEnd_right
    have hpos : m.degreeIn (m.Live K h) across ≠ 0 :=
      fun hzero => degreeIn_eq_zero_iff.mp hzero e he.live hjoin.isEnd_right
    obtain ⟨bs, hbs, hat⟩ := hs.branching.at_vertex across hacross
    exact {
      dangles := he
      joins := hjoin
      leaf_degree := (Trimming.isDangling_iff.mp hb).1
      across_degree := by
        refine ⟨m.degreeIn (m.Live K h) across - 1 + m.singularExtra across, ?_⟩
        rw [hs.degrees.count across hacross]
        congr 1
        omega
      found := ⟨bs, hbs, (hat.mem leaf e).mpr ⟨⟨he.live, he.removable⟩, hjoin.symm⟩⟩ }

/-- with nothing on the stack no vertex dangles -/
theorem Trims.none_dangling (hs : Trims m K h s) (hstack : s.stack = []) {v : VertexId}
    (hv : v < m.vertices.size) : s.isDangling v = .ok false := by
  obtain ⟨b, hb, hiff⟩ := fit.isDangling_ok hs.degrees hs.branching hv
  cases b with
  | false => exact hb
  | true =>
    obtain ⟨e, he⟩ := hiff.mp rfl
    have hmem := hs.waiting v e he
    rw [hstack] at hmem
    cases hmem

end

/-- In every state that trimming comes through, its arrays agree with the removals made so far; the
next removal takes the only edge at its leaf and finds it at both ends; no step fails; and when the
stack is empty no vertex dangles. -/
theorem trimCutGraph_agrees [Scalar α] {m : Mesh α} {K : ExtTreeSet EdgeId} (valid : m.Valid)
    (hK : ∀ e ∈ K, e < m.edges.size) : ∃ start, m.startTrimming K = .ok start ∧
      (∀ h s, TrimSteps start h s → m.Agrees K h s ∧
        (∀ x, s.removal? = some x → m.Prunes K h s x) ∧
        ((∃ next, s.step = .ok (some next)) ∨ s.stack = [] ∧ s.step = .ok none ∧
          ∀ v < m.vertices.size, s.isDangling v = .ok false)) ∧
      ∃ h last, TrimSteps start h last ∧ last.stack = [] ∧
        m.trimCutGraph K = .ok ⟨last.remaining, last.removed⟩ := by
  have fit := valid.trimmable hK
  obtain ⟨start, hstart, htrims, hstack, hremaining⟩ := fit.startTrimming_ok
  have hsize : start.remaining.size + start.removed = K.size := by
    rw [hremaining, htrims.removed]
    rfl
  refine ⟨start, hstart, fun h s hrun => ?_, ?_⟩
  · obtain ⟨hs, hcount⟩ := htrims.of_recorded fit hsize hrun
    refine ⟨hs.agrees fit hcount, fun x hx => hs.prunes fit hx, ?_⟩
    rcases hs.step fit with ⟨hempty, hnone⟩ | ⟨next, hnext, _⟩
    · exact .inr ⟨hempty, hnone, fun v hv => hs.none_dangling fit hempty hv⟩
    · exact .inl ⟨next, hnext⟩
  · obtain ⟨_, last, hlast, _, hempty⟩ := htrims.completes fit
      (m.vertices.size + K.size + 1) (by rw [hremaining]; omega)
    obtain ⟨h, hrun⟩ := Recorded.repeatWhile (fun s => s.removal?.toList) .start hlast
    refine ⟨h, last, hrun, hempty, ?_⟩
    unfold trimCutGraph
    exact bind_eq_ok_iff.mpr ⟨start, hstart, bind_eq_ok_iff.mpr ⟨last, hlast, rfl⟩⟩

theorem agrees_spiked : ∃ m m' start h last, tetrahedron.result = .ok m ∧
    m.setSingularity 3 .two = .ok m' ∧ (spiked m').startTrimming spikeCandidates = .ok start ∧
    (spiked m').Agrees spikeCandidates [] start ∧ TrimSteps start h last ∧ last.stack = [] ∧
    (spiked m').Agrees spikeCandidates h last ∧ h.length = 1 ∧ last.remaining.toList = [1, 5] := by
  obtain ⟨m, m', g, hm, hm', valid, hK, hg, hedges, hremoved⟩ := exists_spiked
  obtain ⟨start, hstart, hall, h, last, hrun, hempty, hok⟩ := trimCutGraph_agrees valid hK
  obtain ⟨hagrees, _⟩ := hall h last hrun
  rw [hg] at hok
  obtain rfl := Except.ok.inj hok
  exact ⟨m, m', start, h, last, hm, hm', hstart, (hall [] start .start).1, hrun, hempty, hagrees,
    hagrees.removed.symm.trans hremoved, hedges⟩

end Mesh
end DiskCut
