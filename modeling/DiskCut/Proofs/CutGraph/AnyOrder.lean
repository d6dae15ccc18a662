import DiskCut.Proofs.CutGraph.Trim
import DiskCut.Proofs.ValidMeshes

/-!
# Removals in any order

The candidates that are left say what was deleted, so a state is a set of candidates.

* `Undeleted m K R e`   edge `e` is in the graph of the candidates `K`, and left when only `R` is
* `IsBare m K R v e`    it is the only such edge at the regular vertex `v`, and removable
* `Deletes m K R R'`    such an edge is taken from `R`, any one
* `Stable m K R`        nothing that has to stay is missing from `R`, and no vertex is bare
* `Deletes.keeps`       a deletion takes nothing from a stable set
* `Stable.of_run`, `le_of_run`   so it is what every run ends with, and the largest one
* `trimCutGraph_anyOrder`   and trimming is one of the runs
-/

namespace DiskCut
open Std
namespace Mesh
variable {α : Type}

def Undeleted (m : Mesh α) (K R : ExtTreeSet EdgeId) (e : EdgeId) : Prop :=
  m.InGraph K e ∧ (e ∈ K → e ∈ R)

/-- vertex `v` is not singular, and the one edge left at it is removable -/
structure IsBare (m : Mesh α) (K R : ExtTreeSet EdgeId) (v : VertexId) (e : EdgeId) : Prop where
  regular : v ∉ m.singularities
  removable : m.IsRemovable K e
  undeleted : m.Undeleted K R e
  isEnd : m.IsEnd e v
  only : ∀ d, m.Undeleted K R d → m.IsEnd d v → d = e

/-- the edge at any one bare vertex is deleted -/
inductive Deletes (m : Mesh α) (K : ExtTreeSet EdgeId) :
    ExtTreeSet EdgeId → ExtTreeSet EdgeId → Prop where
  | delete {R : ExtTreeSet EdgeId} {v : VertexId} {e : EdgeId} :
      m.IsBare K R v e → Deletes m K R (R.erase e)

/-- deletions lead from `R` to `S` -/
def Run (m : Mesh α) (K R S : ExtTreeSet EdgeId) : Prop := Relation.ReflTransGen (m.Deletes K) R S

def NoneBare (m : Mesh α) (K R : ExtTreeSet EdgeId) : Prop := ∀ v e, ¬ m.IsBare K R v e

/-- candidates with all features among them, and without a bare vertex when the others are
deleted -/
structure Stable (m : Mesh α) (K R : ExtTreeSet EdgeId) : Prop where
  subset : ∀ e ∈ R, e ∈ K
  feature : ∀ e ∈ K, m.IsFeature e → e ∈ R
  noneBare : m.NoneBare K R

section
variable {m : Mesh α} {K R R' S : ExtTreeSet EdgeId} {h : List Removal} {v : VertexId} {e : EdgeId}

/-! ## one deletion -/

theorem mem_erase_iff {d : EdgeId} : d ∈ R.erase e ↔ d ∈ R ∧ d ≠ e := by
  rw [ExtTreeSet.mem_erase, ne_eq, Nat.compare_eq_eq, and_comm, eq_comm]

theorem IsBare.mem (hbare : m.IsBare K R v e) : e ∈ R := hbare.undeleted.2 hbare.removable.1

/-- fewer edges leave a bare vertex bare while its edge is among them -/
theorem IsBare.of_subset (hbare : m.IsBare K R v e) (hsub : ∀ d ∈ S, d ∈ R) (he : e ∈ S) :
    m.IsBare K S v e where
  regular := hbare.regular
  removable := hbare.removable
  undeleted := ⟨hbare.undeleted.1, fun _ => he⟩
  isEnd := hbare.isEnd
  only := fun d hd => hbare.only d ⟨hd.1, fun hdK => hsub d (hd.2 hdK)⟩

/-- a deletion takes nothing from a stable set -/
theorem Deletes.keeps (hdel : m.Deletes K R R') (hS : m.Stable K S) (hsub : ∀ e ∈ S, e ∈ R) :
    ∀ e ∈ S, e ∈ R' := by
  cases hdel with
  | @delete v e hbare =>
    intro d hd
    refine mem_erase_iff.mpr ⟨hsub d hd, ?_⟩
    rintro rfl
    exact hS.noneBare v d (hbare.of_subset hsub hd)

theorem Deletes.mem_of_mem (hdel : m.Deletes K R R') : ∀ e ∈ R', e ∈ R := by
  cases hdel with
  | delete _ => exact fun d hd => (mem_erase_iff.mp hd).1

theorem Deletes.keeps_feature (hdel : m.Deletes K R R') (he : m.IsFeature e) (hR : e ∈ R) :
    e ∈ R' := by
  cases hdel with
  | delete hbare =>
    refine mem_erase_iff.mpr ⟨hR, ?_⟩
    rintro rfl
    exact hbare.removable.2.not_isFeature he

theorem Deletes.size_lt (hdel : m.Deletes K R R') : R'.size < R.size := by
  cases hdel with
  | delete hbare =>
    have hsize := size_erase_add_one hbare.mem
    omega

/-- deletions cannot go on for ever -/
theorem wellFounded_deletes (m : Mesh α) (K : ExtTreeSet EdgeId) :
    WellFounded fun R' R => m.Deletes K R R' :=
  Subrelation.wf (fun hdel => hdel.size_lt) (measure ExtTreeSet.size).wf

/-! ## a run of deletions -/

theorem mem_of_run (hrun : m.Run K R S) : ∀ e ∈ S, e ∈ R := by
  induction hrun with
  | refl => exact fun _ he => he
  | tail _ hdel ih => exact fun e he => ih e (hdel.mem_of_mem e he)

theorem le_of_run (hS : m.Stable K S) (hrun : m.Run K K R) : ∀ e ∈ S, e ∈ R := by
  induction hrun with
  | refl => exact hS.subset
  | tail _ hdel ih => exact hdel.keeps hS ih

theorem feature_of_run (hrun : m.Run K R S) (he : m.IsFeature e) (hR : e ∈ R) : e ∈ S := by
  induction hrun with
  | refl => exact hR
  | tail _ hdel ih => exact hdel.keeps_feature he ih

/-- a run that cannot go on ends with a stable set -/
theorem Stable.of_run (hrun : m.Run K K R) (hR : m.NoneBare K R) : m.Stable K R :=
  ⟨mem_of_run hrun, fun _ he hfeature => feature_of_run hrun hfeature he, hR⟩

/-- every run can be completed -/
theorem exists_noneBare (m : Mesh α) (K R : ExtTreeSet EdgeId) :
    ∃ S, m.Run K R S ∧ m.NoneBare K S := by
  induction R using (wellFounded_deletes m K).induction with
  | _ R ih =>
    by_cases hR : m.NoneBare K R
    · exact ⟨R, .refl, hR⟩
    · simp only [NoneBare, not_forall, not_not] at hR
      obtain ⟨v, e, hbare⟩ := hR
      obtain ⟨S, hrun, hS⟩ := ih _ (.delete hbare)
      exact ⟨S, hrun.head (.delete hbare), hS⟩

/-- runs that cannot go on end with the same set -/
theorem eq_of_runs (hrun : m.Run K K R) (hR : m.NoneBare K R) (hrun' : m.Run K K S)
    (hS : m.NoneBare K S) : R = S := by
  refine ExtTreeSet.ext_mem fun e => ⟨?_, ?_⟩
  · exact le_of_run (.of_run hrun hR) hrun' e
  · exact le_of_run (.of_run hrun' hS) hrun e

/-! ## the removals of a trimming -/

/-- what the removals `h` leave of the candidates -/
def Leaves (K : ExtTreeSet EdgeId) (h : List Removal) (R : ExtTreeSet EdgeId) : Prop :=
  ∀ e, e ∈ R ↔ e ∈ K ∧ ∀ x ∈ h, x.edge ≠ e

theorem Peeled.undeleted_iff (hp : Peeled m K h) (hR : Leaves K h R) :
    m.Undeleted K R e ↔ m.Live K h e := by
  refine and_congr_right fun _ => ⟨fun hleft x hx hxe => ?_, fun hlive he => ?_⟩
  · have he : e ∈ K := hxe ▸ (hp.removable x hx).1
    exact ((hR e).mp (hleft he)).2 x hx hxe
  · exact (hR e).mpr ⟨he, hlive⟩

theorem Peeled.isBare_iff (hp : Peeled m K h) (hR : Leaves K h R) :
    m.IsBare K R v e ↔ m.Dangles K h v e := by
  refine ⟨fun hbare => ?_, fun hdangle => ?_⟩
  · exact ⟨hbare.regular, hbare.removable, (hp.undeleted_iff hR).mp hbare.undeleted, hbare.isEnd,
      fun d hd => hbare.only d ((hp.undeleted_iff hR).mpr hd)⟩
  · exact ⟨hdangle.regular, hdangle.removable, (hp.undeleted_iff hR).mpr hdangle.live,
      hdangle.isEnd, fun d hd => hdangle.only d ((hp.undeleted_iff hR).mp hd)⟩

/-- removals at dangling ends are deletions at bare vertices -/
theorem Peeled.run (hp : Peeled m K h) : ∃ R, Leaves K h R ∧ m.Run K K R := by
  induction hp with
  | nil => exact ⟨K, by simp [Leaves], .refl⟩
  | @remove h x hp hdangle _ ih =>
    obtain ⟨R, hR, hrun⟩ := ih
    refine ⟨R.erase x.edge, fun e => ?_, hrun.tail (.delete ((hp.isBare_iff hR).mpr hdangle))⟩
    rw [mem_erase_iff, hR, List.forall_mem_cons, ne_comm]
    tauto

theorem Trimmed.run {g : CutGraph} (ht : Trimmed m K h g) :
    m.Run K K g.edges ∧ m.NoneBare K g.edges := by
  obtain ⟨R, hR, hrun⟩ := ht.peeled.run
  have hRg : R = g.edges := ExtTreeSet.ext_mem fun e => (hR e).trans (ht.edges e).symm
  subst hRg
  exact ⟨hrun, fun v e hbare => ht.done v e ((ht.peeled.isBare_iff hR).mp hbare)⟩

/-- `R` is what the deletions lead to in every order, and the largest stable set -/
structure InAnyOrder (m : Mesh α) (K R : ExtTreeSet EdgeId) : Prop where
  terminates : WellFounded fun S' S => m.Deletes K S S'
  completes : ∀ S, m.Run K K S → m.Run K S R
  ends : ∀ S, m.Run K K S → m.NoneBare K S → S = R
  stable : m.Stable K R
  largest : ∀ S, m.Stable K S → ∀ e ∈ S, e ∈ R

theorem inAnyOrder_of_run (hrun : m.Run K K R) (hR : m.NoneBare K R) : m.InAnyOrder K R where
  terminates := wellFounded_deletes m K
  completes := by
    intro S hS
    obtain ⟨S', hrun', hS'⟩ := exists_noneBare m K S
    rwa [eq_of_runs hrun hR (hS.trans hrun') hS']
  ends := fun _ hS hnone => eq_of_runs hS hnone hrun hR
  stable := .of_run hrun hR
  largest := fun _ hS => le_of_run hS hrun

/-- what trimming leaves of the candidates `K` of a valid mesh is what deletions leave in any
order -/
theorem trimCutGraph_anyOrder [Scalar α] (valid : m.Valid) (hK : ∀ e ∈ K, e < m.edges.size) :
    ∃ g, m.trimCutGraph K = .ok g ∧ m.InAnyOrder K g.edges := by
  obtain ⟨g, h, hok, ht⟩ := trimCutGraph_spec (valid.trimmable hK)
  obtain ⟨hrun, hnone⟩ := ht.run
  exact ⟨g, hok, inAnyOrder_of_run hrun hnone⟩

end

theorem anyOrder_spiked : ∃ m m' g, tetrahedron.result = .ok m ∧
    m.setSingularity 3 .two = .ok m' ∧ (spiked m').trimCutGraph spikeCandidates = .ok g ∧
    g.edges.toList = [1, 5] ∧ (spiked m').InAnyOrder spikeCandidates g.edges := by
  obtain ⟨m, m', g, hm, hm', valid, hK, hg, hedges, _⟩ := exists_spiked
  obtain ⟨g', hg', horder⟩ := trimCutGraph_anyOrder valid hK
  rw [hg] at hg'
  obtain rfl := Except.ok.inj hg'
  exact ⟨m, m', g, hm, hm', hg, hedges, horder⟩

end Mesh
end DiskCut
