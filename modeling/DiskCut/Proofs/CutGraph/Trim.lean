import DiskCut.Proofs.CutGraph.Peel
import DiskCut.Proofs.CutGraph.Tally
import DiskCut.Proofs.Run

/-!
# Trimming peels the graph

* `Trimmable m K`    what trimming the candidates `K` reads of the mesh `m` is there
* `Trimming.removal?` the removal that the next step makes
* `Trims m K h s`    the trimming `s` stands where the removals `h` lead
* `Trimmed m K h g`  the removals `h` lead to the graph `g`, which has no dangling end
* `trimCutGraph_spec`  trimming completes, with a run of removals

Every vertex that dangles is on the stack.  A removal takes one edge and puts one vertex on the
stack at most, so stack and remaining edges together bound the number of steps.
-/

namespace DiskCut
open Std

/-- the edge that the next step removes at the vertex on top of the stack, none when that vertex does
not dangle -/
def Trimming.removal? (s : Trimming) : Option Mesh.Removal :=
  match s.stack with
  | [] => none
  | leaf :: _ =>
    if s.degree[leaf]? = some 1 then
      (s.branches[leaf]?.bind List.getLast?).map fun (across, e) => ⟨e, leaf, across⟩
    else none

/-- a vertex dangles when it has degree one and a removable edge -/
theorem Trimming.isDangling_iff {s : Trimming} {v : VertexId} : s.isDangling v = .ok true ↔
    s.degree[v]? = some 1 ∧ ∃ bs, s.branches[v]? = some bs ∧ bs ≠ [] := by
  unfold isDangling
  rw [bind_eq_ok_iff]
  refine ⟨?_, ?_⟩
  · intro ⟨d, hd, h⟩
    rw [fetch_eq_ok_iff] at hd
    split at h
    · rename_i hone
      obtain ⟨bs, hbs, h⟩ := bind_eq_ok_iff.mp h
      rw [pure_eq_ok_iff] at h
      exact ⟨hone ▸ hd, bs, fetch_eq_ok_iff.mp hbs, by simpa using h⟩
    · cases h
  · intro ⟨hd, bs, hbs, hne⟩
    refine ⟨1, fetch_eq_ok_iff.mpr hd, ?_⟩
    rw [if_pos rfl, fetch_eq_ok_iff.mpr hbs]
    simpa [pure_eq_ok_iff] using hne

theorem Trimming.removal?_of_not_dangling {s : Trimming} {leaf : VertexId} {rest : List VertexId}
    (hstack : s.stack = leaf :: rest) (h : s.isDangling leaf = .ok false) : s.removal? = none := by
  unfold removal?
  rw [hstack]
  refine ite_eq_right_iff.mpr fun hone => ?_
  rw [Option.map_eq_none_iff, Option.bind_eq_none_iff]
  intro bs hbs
  by_contra hlast
  have hdangling : s.isDangling leaf = .ok true :=
    isDangling_iff.mpr ⟨hone, bs, hbs, mt List.getLast?_eq_none_iff.mpr hlast⟩
  rw [h] at hdangling
  cases hdangling

namespace Mesh
variable {α : Type}

structure Trimmable (m : Mesh α) (K : ExtTreeSet EdgeId) : Prop where
  ends_lt : ∀ {e : EdgeId} {x : Edge α}, m.edges[e]? = some x → x.ends.1 < x.ends.2
  end_lt : ∀ {e : EdgeId} {x : Edge α}, m.edges[e]? = some x → x.ends.2 < m.vertices.size
  size_eq : m.edgeTriangles.size = m.edges.size
  feature : ∀ e, e ∈ m.featureEdges ↔ m.IsFeature e
  singular_lt : ∀ v ∈ m.singularities, v < m.vertices.size
  candidate_lt : ∀ e ∈ K, e < m.edges.size

/-- a singular vertex counts one edge more -/
def singularExtra (m : Mesh α) (v : VertexId) : Nat := if v ∈ m.singularities then 1 else 0

structure Trims (m : Mesh α) (K : ExtTreeSet EdgeId) (h : List Removal) (s : Trimming) : Prop where
  peeled : Peeled m K h
  degrees : Degrees m (m.Live K h) m.singularExtra s.degree
  branching : Branching m (fun e => m.Live K h e ∧ m.IsRemovable K e) s.branches
  remaining : ∀ e, e ∈ s.remaining ↔ e ∈ K ∧ ∀ x ∈ h, x.edge ≠ e
  removed : s.removed = h.length
  stack_lt : ∀ v ∈ s.stack, v < m.vertices.size
  waiting : ∀ v e, m.Dangles K h v e → v ∈ s.stack

structure Trimmed (m : Mesh α) (K : ExtTreeSet EdgeId) (h : List Removal) (g : CutGraph) : Prop where
  peeled : Peeled m K h
  edges : ∀ e, e ∈ g.edges ↔ e ∈ K ∧ ∀ x ∈ h, x.edge ≠ e
  removed : g.removed = h.length
  done : ∀ v e, ¬ m.Dangles K h v e

section
variable {m : Mesh α} {K : ExtTreeSet EdgeId} {h : List Removal} {s : Trimming} {e : EdgeId}
  {a b v w : VertexId} (fit : m.Trimmable K)
include fit

namespace Trimmable

theorem joins_ends {x : Edge α} (hx : m.edges[e]? = some x) : m.Joins e x.ends.1 x.ends.2 :=
  ⟨x, hx, (edgeKey_of_le (Nat.le_of_lt (fit.ends_lt hx))).symm⟩

theorem exists_joins (hv : m.IsEnd e v) : ∃ w, m.Joins e v w := by
  obtain ⟨x, hx, rfl | rfl⟩ := hv
  · exact ⟨_, fit.joins_ends hx⟩
  · exact ⟨_, (fit.joins_ends hx).symm⟩

theorem ne_of_joins (hab : m.Joins e a b) : a ≠ b := by
  obtain ⟨x, hx, hends⟩ := hab
  have hlt := fit.ends_lt hx
  rw [hends] at hlt
  intro heq
  subst heq
  rcases edgeKey_cases a a with hk | hk <;> rw [hk] at hlt <;> exact Nat.lt_irrefl _ hlt

theorem lt_of_isEnd (hv : m.IsEnd e v) : v < m.vertices.size := by
  obtain ⟨x, hx, rfl | rfl⟩ := hv
  · exact Nat.lt_trans (fit.ends_lt hx) (fit.end_lt hx)
  · exact fit.end_lt hx

theorem lt_of_inGraph (he : m.InGraph K e) : e < m.edges.size := by
  rcases he with he | he | ⟨ts, hts, _⟩
  · exact fit.candidate_lt e he
  · exact he.lt_size
  · rw [← fit.size_eq]
    exact (Array.getElem?_eq_some_iff.mp hts).1

end Trimmable

/-! ## dangling ends -/

theorem Trimmable.isDangling_ok (hdeg : Degrees m (m.Live K h) m.singularExtra s.degree)
    (hbranch : Branching m (fun e => m.Live K h e ∧ m.IsRemovable K e) s.branches)
    (hv : v < m.vertices.size) :
    ∃ b, s.isDangling v = .ok b ∧ (b = true ↔ ∃ e, m.Dangles K h v e) := by
  obtain ⟨bs, hbs, hat⟩ := hbranch.at_vertex v hv
  have hcount := hdeg.count v hv
  unfold Trimming.isDangling
  rw [fetch_eq_ok_iff.mpr hcount, fetch_eq_ok_iff.mpr hbs]
  by_cases hone : m.degreeIn (m.Live K h) v + m.singularExtra v = 1
  · refine ⟨!bs.isEmpty, ?_, ?_⟩
    · show (if _ = 1 then _ else _) = _
      rw [if_pos hone]
      rfl
    · rw [Bool.not_eq_true', List.isEmpty_eq_false_iff_exists_mem]
      refine ⟨?_, ?_⟩
      · intro ⟨⟨w, e⟩, hmem⟩
        obtain ⟨⟨hlive, hrem⟩, hjoin⟩ := (hat.mem w e).mp hmem
        have hregular : v ∉ m.singularities := by
          intro hsing
          have hzero : m.degreeIn (m.Live K h) v = 0 := by
            unfold singularExtra at hone
            rw [if_pos hsing] at hone
            omega
          exact degreeIn_eq_zero_iff.mp hzero e hlive hjoin.isEnd_left
        unfold singularExtra at hone
        rw [if_neg hregular] at hone
        obtain ⟨d, _, _, hall⟩ := degreeIn_eq_one_iff.mp hone
        refine ⟨e, hregular, hrem, hlive, hjoin.isEnd_left, fun d' hd' hend => ?_⟩
        rw [hall d' hd' hend, hall e hlive hjoin.isEnd_left]
      · intro ⟨e, hdangle⟩
        obtain ⟨w, hjoin⟩ := fit.exists_joins hdangle.isEnd
        exact ⟨(w, e), (hat.mem w e).mpr ⟨⟨hdangle.live, hdangle.removable⟩, hjoin⟩⟩
  · refine ⟨false, ?_, ?_⟩
    · show (if _ = 1 then _ else _) = _
      rw [if_neg hone]
      rfl
    · refine iff_of_false (by simp) fun ⟨e, hdangle⟩ => hone ?_
      unfold singularExtra
      rw [if_neg hdangle.regular]
      exact degreeIn_eq_one_iff.mpr ⟨e, hdangle.live, hdangle.isEnd, hdangle.only⟩

/-! ## one step -/

omit fit in
/-- a removal leaves no new dangling end but the other end of its edge -/
theorem Dangles.of_remove {x : Removal} (hx : m.Dangles K h x.leaf x.edge)
    (hjoin : m.Joins x.edge x.leaf x.across) (hv : m.Dangles K (x :: h) v e) :
    v = x.across ∨ v ≠ x.leaf ∧ m.Dangles K h v e := by
  have hlive := live_cons.mp hv.live
  by_cases hva : v = x.across
  · exact .inl hva
  have hvl : v ≠ x.leaf := by
    intro heq
    subst heq
    exact hlive.2 (hx.only e hlive.1 hv.isEnd)
  refine .inr ⟨hvl, hv.regular, hv.removable, hlive.1, hv.isEnd, fun d hd hend => ?_⟩
  refine hv.only d (live_cons.mpr ⟨hd, ?_⟩) hend
  intro heq
  subst heq
  exact not_or.mpr ⟨hvl, hva⟩ (hjoin.isEnd_iff.mp hend)

omit fit in
theorem live_iff_cons {x : Removal} (hx : m.Live K h x.edge) (d : EdgeId) :
    m.Live K h d ↔ m.Live K (x :: h) d ∨ d = x.edge := by
  rw [live_cons]
  refine ⟨?_, ?_⟩
  · intro hd
    by_cases hdx : d = x.edge
    · exact .inr hdx
    · exact .inl ⟨hd, hdx⟩
  · intro hcase
    rcases hcase with hd | rfl
    · exact hd.1
    · exact hx

section
variable {leaf across : VertexId} {rest : List VertexId}

omit fit in
/-- a vertex that does not dangle leaves the stack -/
theorem Trims.drop (hs : Trims m K h s) (hstack : s.stack = leaf :: rest)
    (hstays : ∀ e, ¬ m.Dangles K h leaf e) : Trims m K h { s with stack := rest } :=
  { hs with
    stack_lt := fun v hv => hs.stack_lt v (by rw [hstack]; exact List.mem_cons_of_mem _ hv)
    waiting := by
      intro v e hv
      have hmem := hs.waiting v e hv
      rw [hstack] at hmem
      refine (List.mem_cons.mp hmem).resolve_left ?_
      intro heq
      subst heq
      exact hstays e hv }

/-- the edge at a dangling end removed, with the vertex across in its place on the stack -/
theorem Trims.remove (hs : Trims m K h s) (hstack : s.stack = leaf :: rest)
    {bs : List (VertexId × EdgeId)} (hbs : s.branches[leaf]? = some bs)
    (hlast : bs.getLast? = some (across, e)) (hdangle : m.Dangles K h leaf e)
    (hjoin : m.Joins e leaf across) :
    ∃ branches once degree branches', alter s.branches leaf (·.dropLast) = .ok branches ∧
      Trimming.lower s.degree leaf = .ok once ∧ Trimming.lower once across = .ok degree ∧
      alter branches across (Trimming.swapRemove (·.2 == e)) = .ok branches' ∧
      Trims m K (⟨e, leaf, across⟩ :: h)
        ⟨degree, branches', s.remaining.erase e, s.removed + 1, across :: rest⟩ := by
  have hne := fit.ne_of_joins hjoin
  have hleaf := fit.lt_of_isEnd hjoin.isEnd_left
  have hacross := fit.lt_of_isEnd hjoin.isEnd_right
  have hgone : ¬ m.Live K (⟨e, leaf, across⟩ :: h) e := fun hlive => (live_cons.mp hlive).2 rfl
  obtain ⟨once, degree, honce, hdegree, hdegrees⟩ := hs.degrees.lower
    (live_iff_cons (x := ⟨e, leaf, across⟩) hdangle.live) hgone hjoin hne hleaf hacross
  have hR : ∀ d, m.Live K (⟨e, leaf, across⟩ :: h) d ∧ m.IsRemovable K d ↔
      (m.Live K h d ∧ m.IsRemovable K d) ∧ d ≠ e := by
    intro d
    rw [live_cons, and_right_comm]
  have hbranching := hs.branching.detach hR hjoin hne hbs hlast
  refine ⟨_, once, degree, _, alter_of_lt (hs.branching.size.symm ▸ hleaf), honce, hdegree,
    alter_of_lt ?_, ?_⟩
  · rw [Array.size_modify, hs.branching.size]
    exact hacross
  · exact {
      peeled := .remove hs.peeled hdangle hjoin
      degrees := hdegrees
      branching := hbranching
      remaining := by
        intro d
        rw [ExtTreeSet.mem_erase, hs.remaining, List.forall_mem_cons, ne_eq, Nat.compare_eq_eq]
        tauto
      removed := by
        rw [hs.removed]
        rfl
      stack_lt := by
        intro v hv
        rcases List.mem_cons.mp hv with rfl | hv
        · exact hacross
        · exact hs.stack_lt v (by rw [hstack]; exact List.mem_cons_of_mem _ hv)
      waiting := by
        intro v d hv
        rcases hdangle.of_remove (x := ⟨e, leaf, across⟩) hjoin hv with rfl | ⟨hne, hv⟩
        · exact List.mem_cons_self
        · have hmem := hs.waiting v d hv
          rw [hstack] at hmem
          exact List.mem_cons_of_mem _ ((List.mem_cons.mp hmem).resolve_left hne) }

/-- a dangling end leaves the stack with its edge; the vertex across stays if it dangles now -/
theorem Trims.prune (hs : Trims m K h s) (hstack : s.stack = leaf :: rest)
    (hdangling : s.isDangling leaf = .ok true) (hd : m.Dangles K h leaf e) :
    ∃ across next, s.removal? = some ⟨e, leaf, across⟩ ∧ m.Joins e leaf across ∧
      s.step = .ok (some next) ∧ Trims m K (⟨e, leaf, across⟩ :: h) next ∧
      next.remaining.size + next.removed = s.remaining.size + s.removed ∧
      next.stack.length + next.remaining.size < s.stack.length + s.remaining.size := by
  obtain ⟨bs, hbs, hat⟩ := hs.branching.at_vertex leaf (fit.lt_of_isEnd hd.isEnd)
  obtain ⟨w, hw⟩ := fit.exists_joins hd.isEnd
  have hmem := (hat.mem w e).mpr ⟨⟨hd.live, hd.removable⟩, hw⟩
  obtain ⟨⟨across, d⟩, hlast⟩ : ∃ x, bs.getLast? = some x :=
    ⟨_, List.getLast?_eq_some_getLast (List.ne_nil_of_mem hmem)⟩
  obtain ⟨⟨hlive, _⟩, hjoin⟩ := (hat.mem across d).mp (List.mem_of_getLast? hlast)
  obtain rfl := hd.only d hlive hjoin.isEnd_left
  have hremoval : s.removal? = some ⟨d, leaf, across⟩ := by
    unfold Trimming.removal?
    rw [hstack]
    simp only [(Trimming.isDangling_iff.mp hdangling).1, if_true, hbs, Option.bind_some, hlast,
      Option.map_some]
  obtain ⟨branches, once, degree, branches', hbranches, honce, hdegree, hbranches', hnext⟩ :=
    hs.remove fit hstack hbs hlast hd hjoin
  obtain ⟨b, hb, hiff⟩ := fit.isDangling_ok
    (s := ⟨degree, branches', s.remaining.erase d, s.removed + 1, rest⟩)
    hnext.degrees hnext.branching (fit.lt_of_isEnd hjoin.isEnd_right)
  have hstep : s.step = .ok (some ⟨degree, branches', s.remaining.erase d, s.removed + 1,
      if b then across :: rest else rest⟩) := by
    unfold Trimming.step
    simp only [hstack, hdangling, fetch_eq_ok_iff.mpr hbs, hlast, hbranches, honce, hdegree,
      hbranches', hb, bind, Except.bind]
    cases b <;> rfl
  have hsize := size_erase_add_one ((hs.remaining d).mpr ⟨hd.removable.1, hd.live.2⟩)
  refine ⟨across, _, hremoval, hjoin, hstep, ?_, ?_, ?_⟩
  · cases b with
    | true => exact hnext
    | false =>
      refine hnext.drop rfl fun d' hd' => ?_
      cases hiff.mpr ⟨d', hd'⟩
  · show (s.remaining.erase d).size + (s.removed + 1) = _
    omega
  · cases b <;> simp [hstack] <;> omega

end

/-- a step makes the removal that is next, if there is one, and fails in nothing -/
theorem Trims.step (hs : Trims m K h s) : (s.stack = [] ∧ s.step = .ok none) ∨
    ∃ next, s.step = .ok (some next) ∧ Trims m K (s.removal?.toList ++ h) next ∧
      next.remaining.size + next.removed = s.remaining.size + s.removed ∧
      next.stack.length + next.remaining.size < s.stack.length + s.remaining.size := by
  rcases hstack : s.stack with _ | ⟨leaf, rest⟩
  · refine .inl ⟨rfl, ?_⟩
    unfold Trimming.step
    rw [hstack]
  right
  rw [← hstack]
  obtain ⟨b, hb, hiff⟩ := fit.isDangling_ok hs.degrees hs.branching
    (hs.stack_lt leaf (by rw [hstack]; exact List.mem_cons_self))
  cases b with
  | true =>
    obtain ⟨e, he⟩ := hiff.mp rfl
    obtain ⟨across, next, hremoval, _, hnext⟩ := hs.prune fit hstack hb he
    rw [hremoval]
    exact ⟨next, hnext⟩
  | false =>
    rw [Trimming.removal?_of_not_dangling hstack hb]
    refine ⟨{ s with stack := rest }, ?_, hs.drop hstack fun e he => ?_, rfl, ?_⟩
    · unfold Trimming.step
      rw [hstack]
      show (s.isDangling leaf >>= _) = _
      rw [hb]
      rfl
    · cases hiff.mpr ⟨e, he⟩
    · rw [hstack, List.length_cons]
      show rest.length + s.remaining.size < _
      omega

/-! ## the graph before any removal -/

theorem Trimmable.graphEdges_ok :
    ∃ edges, m.graphEdges K = .ok edges ∧ ∀ e, e ∈ edges ↔ m.InGraph K e := by
  have hread : ∀ e < m.edges.size, ∃ ts, m.edgeTriangles[e]? = some ts := by
    intro e he
    rw [← fit.size_eq] at he
    exact ⟨_, Array.getElem?_eq_getElem he⟩
  have htotal : ∀ e ∈ List.range m.edges.size, ∃ b, m.isBoundaryEdge e = .ok b := by
    intro e he
    obtain ⟨ts, hts⟩ := hread e (List.mem_range.mp he)
    exact ⟨_, isBoundaryEdge_eq hts⟩
  obtain ⟨boundary, hboundary⟩ := filterM_total htotal
  have hmem : ∀ e, e ∈ boundary ↔ m.IsBoundary e := by
    intro e
    rw [(filterM_eq_ok hboundary).2 e, List.mem_range]
    refine ⟨?_, ?_⟩
    · intro ⟨he, hok⟩
      obtain ⟨ts, hts⟩ := hread e he
      rw [isBoundaryEdge_eq hts] at hok
      exact ⟨ts, hts, of_decide_eq_true (Except.ok.inj hok)⟩
    · intro ⟨ts, hts, hlen⟩
      refine ⟨?_, by rw [isBoundaryEdge_eq hts, decide_eq_true hlen]⟩
      rw [← fit.size_eq]
      exact (Array.getElem?_eq_some_iff.mp hts).1
  refine ⟨_, bind_eq_ok_iff.mpr ⟨boundary, hboundary, rfl⟩, fun e => ?_⟩
  rw [ExtTreeSet.mem_insertMany_list, ExtTreeSet.mem_insertMany_list, List.contains_iff_mem,
    List.contains_iff_mem, ExtTreeSet.mem_toList, fit.feature, hmem]
  unfold InGraph
  tauto

omit fit in
/-- an edge is marked removable as it is entered -/
theorem mark_iff {x : Edge α} (hx : m.edges[e]? = some x) :
    (K.contains e && !x.isFeature) = true ↔ m.IsRemovable K e := by
  rw [Bool.and_eq_true, Bool.not_eq_true', ExtTreeSet.contains_iff_mem]
  refine and_congr_right fun _ => ⟨fun hplain => ⟨x, hx, hplain⟩, ?_⟩
  intro ⟨y, hy, hplain⟩
  rw [hx] at hy
  rw [Option.some.inj hy]
  exact hplain

/-- one more edge of the graph entered -/
theorem Trimmable.addBranch_ok {D : EdgeId → Prop} {extra : VertexId → Nat}
    (hdeg : Degrees m D extra s.degree)
    (hbranch : Branching m (fun e => D e ∧ m.IsRemovable K e) s.branches) (he : e < m.edges.size)
    (hnew : ¬ D e) :
    ∃ degree branches, m.addBranch K s e = .ok { s with degree, branches } ∧
      Degrees m (fun d => D d ∨ d = e) extra degree ∧
      Branching m (fun d => (D d ∨ d = e) ∧ m.IsRemovable K d) branches := by
  have hx := Array.getElem?_eq_getElem he
  have hjoin := fit.joins_ends hx
  have hne := fit.ne_of_joins hjoin
  have ha := fit.lt_of_isEnd hjoin.isEnd_left
  have hb := fit.lt_of_isEnd hjoin.isEnd_right
  have hraise := hdeg.raise (fun d => Iff.rfl) hnew hjoin hne
  have hread : m.edge e = .ok m.edges[e] := fetch_eq_ok_iff.mpr hx
  have hfirst : alter s.degree m.edges[e].ends.1 (· + 1) = .ok _ :=
    alter_of_lt (hdeg.size.symm ▸ ha)
  have hsecond : alter (s.degree.modify m.edges[e].ends.1 (· + 1)) m.edges[e].ends.2 (· + 1)
      = .ok _ := alter_of_lt (by rw [Array.size_modify, hdeg.size]; exact hb)
  unfold addBranch
  by_cases hrem : m.IsRemovable K e
  · have hR : ∀ d, (D d ∨ d = e) ∧ m.IsRemovable K d ↔ (D d ∧ m.IsRemovable K d) ∨ d = e := by
      intro d
      rw [or_and_right]
      refine or_congr_right ⟨And.left, ?_⟩
      intro heq
      subst heq
      exact ⟨rfl, hrem⟩
    have hattach := hbranch.attach hR (fun h => hnew h.1) hjoin hne
    refine ⟨_, _, ?_, hraise, hattach⟩
    have hfirst' : alter s.branches m.edges[e].ends.1 (· ++ [(m.edges[e].ends.2, e)]) = .ok _ :=
      alter_of_lt (hbranch.size.symm ▸ ha)
    have hsecond' : alter (s.branches.modify m.edges[e].ends.1 (· ++ [(m.edges[e].ends.2, e)]))
        m.edges[e].ends.2 (· ++ [(m.edges[e].ends.1, e)]) = .ok _ :=
      alter_of_lt (by rw [Array.size_modify, hbranch.size]; exact hb)
    simp only [hread, hfirst, hsecond, (mark_iff hx).mpr hrem, hfirst', hsecond', bind,
      Except.bind]
    rfl
  · have hR : (fun d => (D d ∨ d = e) ∧ m.IsRemovable K d) = fun d => D d ∧ m.IsRemovable K d := by
      funext d
      rw [or_and_right, or_iff_left_of_imp]
      intro ⟨heq, hdrem⟩
      subst heq
      exact absurd hdrem hrem
    refine ⟨_, s.branches, ?_, hraise, hR ▸ hbranch⟩
    simp only [hread, hfirst, hsecond, Bool.eq_false_iff.mpr (mt (mark_iff hx).mp hrem), bind,
      Except.bind]
    rfl

theorem Trimmable.addBranches_ok {edges : List EdgeId} (hnodup : edges.Nodup)
    (hlt : ∀ e ∈ edges, e < m.edges.size) (hstack : s.stack = []) (hremoved : s.removed = 0)
    (hremaining : s.remaining = K) (hdeg : Degrees m (fun _ => False) (fun _ => 0) s.degree)
    (hbranch : Branching m (fun _ => False) s.branches) :
    ∃ s', edges.foldlM (m.addBranch K) s = .ok s' ∧ s'.stack = [] ∧ s'.removed = 0 ∧
      s'.remaining = K ∧ Degrees m (· ∈ edges) (fun _ => 0) s'.degree ∧
      Branching m (fun e => e ∈ edges ∧ m.IsRemovable K e) s'.branches := by
  have keep : ∀ pre e post (s' : Trimming), edges = pre ++ e :: post →
      (s'.stack = [] ∧ s'.removed = 0 ∧ s'.remaining = K ∧
        Degrees m (· ∈ pre) (fun _ => 0) s'.degree ∧
        Branching m (fun d => d ∈ pre ∧ m.IsRemovable K d) s'.branches) →
      ∃ next, m.addBranch K s' e = .ok next ∧ next.stack = [] ∧ next.removed = 0 ∧
        next.remaining = K ∧ Degrees m (· ∈ pre ++ [e]) (fun _ => 0) next.degree ∧
        Branching m (fun d => d ∈ pre ++ [e] ∧ m.IsRemovable K d) next.branches := by
    rintro pre e post s' rfl ⟨hstack, hremoved, hremaining, hdeg, hbranch⟩
    have hnew : e ∉ pre := by
      intro hmem
      exact List.nodup_append.mp hnodup |>.2.2 e hmem e List.mem_cons_self rfl
    obtain ⟨degree, branches, hok, hdeg', hbranch'⟩ := fit.addBranch_ok hdeg hbranch
      (hlt e (List.mem_append_right _ List.mem_cons_self)) hnew
    have hsnoc : (fun d => d ∈ pre ++ [e]) = fun d => d ∈ pre ∨ d = e := by
      funext d
      rw [List.mem_append, List.mem_singleton]
    refine ⟨_, hok, hstack, hremoved, hremaining, ?_, ?_⟩
    · rw [hsnoc]
      exact hdeg'
    · rw [show (fun d => d ∈ pre ++ [e] ∧ m.IsRemovable K d)
        = fun d => (d ∈ pre ∨ d = e) ∧ m.IsRemovable K d from
          funext fun d => congrArg (· ∧ m.IsRemovable K d) (congrFun hsnoc d)]
      exact hbranch'
  refine foldlM_total keep ⟨hstack, hremoved, hremaining, ?_, ?_⟩
  · simpa only [List.not_mem_nil] using hdeg
  · simpa only [List.not_mem_nil, false_and] using hbranch

theorem Trimmable.addSingularities_ok {D : EdgeId → Prop} {degree : Array Nat}
    (hdeg : Degrees m D (fun _ => 0) degree) :
    ∃ degree', m.singularities.keys.foldlM (fun degree v => alter degree v (· + 1)) degree
        = .ok degree' ∧ Degrees m D m.singularExtra degree' := by
  have hnodup : m.singularities.keys.Nodup := m.singularities.nodup_keys
  have keep : ∀ pre v post (degree : Array Nat), m.singularities.keys = pre ++ v :: post →
      Degrees m D (fun v => if v ∈ pre then 1 else 0) degree →
      ∃ next, alter degree v (· + 1) = .ok next ∧
        Degrees m D (fun w => if w ∈ pre ++ [v] then 1 else 0) next := by
    intro pre v post degree hpre hdeg
    have hv : v < m.vertices.size := by
      refine fit.singular_lt v (ExtTreeMap.mem_keys.mp ?_)
      rw [hpre]
      exact List.mem_append_right _ List.mem_cons_self
    have hnew : v ∉ pre := by
      intro hmem
      rw [hpre] at hnodup
      exact List.nodup_append.mp hnodup |>.2.2 v hmem v List.mem_cons_self rfl
    refine ⟨_, alter_of_lt (hdeg.size.symm ▸ hv), ?_, fun w hw => ?_⟩
    · rw [Array.size_modify, hdeg.size]
    · rw [Array.getElem?_modify, hdeg.count w hw]
      simp only [List.mem_append, List.mem_singleton]
      by_cases hvw : v = w
      · subst hvw
        rw [if_pos rfl, if_neg hnew, if_pos (.inr rfl)]
        rfl
      · have hwv : ¬ w = v := fun h => hvw h.symm
        simp only [if_neg hvw, hwv, or_false]
  obtain ⟨degree', hok, hdeg'⟩ := foldlM_total keep
    (by simpa only [List.not_mem_nil, if_false] using hdeg)
  refine ⟨degree', hok, ?_⟩
  have hextra : m.singularExtra = fun v => if v ∈ m.singularities.keys then 1 else 0 := by
    funext v
    unfold singularExtra
    simp only [ExtTreeMap.mem_keys]
  rw [hextra]
  exact hdeg'

theorem Trimmable.startTrimming_ok : ∃ s, m.startTrimming K = .ok s ∧ Trims m K [] s ∧
    s.stack.length ≤ m.vertices.size ∧ s.remaining = K := by
  obtain ⟨edges, hedges, hmem⟩ := fit.graphEdges_ok
  have hnodup : edges.toList.Nodup := nodup_toList edges
  have hlt : ∀ e ∈ edges.toList, e < m.edges.size := fun e he =>
    fit.lt_of_inGraph ((hmem e).mp (ExtTreeSet.mem_toList.mp he))
  have hdeg : Degrees m (fun _ => False) (fun _ => 0)
      (List.replicate m.vertices.size 0).toArray := by
    refine ⟨by simp, fun v hv => ?_⟩
    rw [degreeIn_eq_zero_iff.mpr fun _ h => h.elim]
    simp [hv]
  have hbranch : Branching m (fun _ => False) (List.replicate m.vertices.size []).toArray := by
    exact ⟨by simp, fun v hv => ⟨[], by simp [hv], .nil, by simp⟩⟩
  obtain ⟨entered, hentered, _, hremoved, hremaining, hdeg, hbranch⟩ := fit.addBranches_ok
    (s := ⟨_, _, K, 0, []⟩) hnodup hlt rfl rfl rfl hdeg hbranch
  have hlive : (fun e => e ∈ edges.toList) = m.Live K [] := by
    funext e
    rw [ExtTreeSet.mem_toList, hmem, live_nil]
  rw [hlive] at hdeg
  have hbranch : Branching m (fun e => m.Live K [] e ∧ m.IsRemovable K e) entered.branches := by
    rw [← hlive]
    exact hbranch
  obtain ⟨degree, hdegree, hdeg⟩ := fit.addSingularities_ok hdeg
  have htotal : ∀ v ∈ List.range m.vertices.size,
      ∃ b, ({ entered with degree } : Trimming).isDangling v = .ok b := by
    intro v hv
    obtain ⟨b, hb, _⟩ := fit.isDangling_ok (s := { entered with degree }) hdeg hbranch
      (List.mem_range.mp hv)
    exact ⟨b, hb⟩
  obtain ⟨stack, hstack⟩ := filterM_total htotal
  obtain ⟨hsub, hchosen⟩ := filterM_eq_ok hstack
  refine ⟨{ entered with degree, stack }, ?_, ?_, ?_, hremaining⟩
  · unfold startTrimming
    refine bind_eq_ok_iff.mpr ⟨edges, hedges, bind_eq_ok_iff.mpr ⟨entered, hentered, ?_⟩⟩
    exact bind_eq_ok_iff.mpr ⟨degree, hdegree, bind_eq_ok_iff.mpr ⟨stack, hstack, rfl⟩⟩
  · exact {
      peeled := .nil
      degrees := hdeg
      branching := hbranch
      remaining := by
        intro e
        show e ∈ entered.remaining ↔ _
        rw [hremaining]
        simp
      removed := hremoved
      stack_lt := fun v hv => List.mem_range.mp (hsub.subset hv)
      waiting := by
        intro v e hv
        have hvlt := fit.lt_of_isEnd hv.isEnd
        obtain ⟨b, hb, hiff⟩ := fit.isDangling_ok (s := { entered with degree }) hdeg hbranch hvlt
        refine (hchosen v).mpr ⟨List.mem_range.mpr hvlt, ?_⟩
        rw [hb, hiff.mpr ⟨e, hv⟩] }
  · have hle := hsub.length_le
    rwa [List.length_range] at hle

/-! ## the whole run -/

/-- the steps end with an empty stack, in fewer than there are vertices and edges to look at -/
theorem Trims.completes (hs : Trims m K h s) (bound : Nat)
    (below : s.stack.length + s.remaining.size < bound) : ∃ h' last,
      repeatWhile Trimming.step bound s = .ok last ∧ Trims m K h' last ∧ last.stack = [] := by
  have progress : ∀ n s, (∃ h, Trims m K h s ∧ n = s.stack.length + s.remaining.size) →
      (s.stack = [] ∧ s.step = .ok none) ∨ ∃ next k, s.step = .ok (some next) ∧ k < n ∧
        ∃ h, Trims m K h next ∧ k = next.stack.length + next.remaining.size := by
    rintro n s ⟨h, hs, rfl⟩
    rcases hs.step fit with hdone | ⟨next, hnext, hs', _, hlt⟩
    · exact .inl hdone
    · exact .inr ⟨next, _, hnext, hlt, _, hs', rfl⟩
  obtain ⟨last, _, hlast, ⟨h', hs', _⟩, hempty⟩ := repeatWhile_spec progress ⟨h, hs, rfl⟩ below
  exact ⟨h', last, hlast, hs', hempty⟩

/-- trimming completes, and its result is that of a run of removals that could not go on -/
theorem trimCutGraph_spec : ∃ g h, m.trimCutGraph K = .ok g ∧ Trimmed m K h g := by
  obtain ⟨start, hstart, htrims, hstack, hremaining⟩ := fit.startTrimming_ok
  obtain ⟨h, last, hlast, hs, hempty⟩ := htrims.completes fit
    (m.vertices.size + K.size + 1) (by rw [hremaining]; omega)
  refine ⟨⟨last.remaining, last.removed⟩, h, ?_, hs.peeled, hs.remaining, hs.removed, ?_⟩
  · unfold trimCutGraph
    exact bind_eq_ok_iff.mpr ⟨start, hstart, bind_eq_ok_iff.mpr ⟨last, hlast, rfl⟩⟩
  · intro v e hv
    have hmem := hs.waiting v e hv
    rw [hempty] at hmem
    exact List.not_mem_nil hmem

end
end Mesh
end DiskCut
