import DiskCut.Proofs.CutGraph.Leaves
import DiskCut.Proofs.CutGraph.Marked
import DiskCut.Proofs.CutGraph.Skeleton
import DiskCut.Proofs.ValidMeshes

/-!
# Branches that hang loose

* `wiring m E`              the graph of the edges that satisfy `E`, on all vertices
* `part m E v`              the vertices that a walk along such edges leads to from `v`
* `HangsLoose m K e v w`    without the edge `e`, what is connected to its end `v` is a tree that
                            nothing anchors, and that does not lead back to the other end `w`
* `HangsOn h r v`           the removals `h` lead from the dangling end `v` to `r`
* `Peeled.not_onCycle`      a removed edge is on no cycle
* `Peeled.hangsLoose`       it hung loose at its dangling end
* `HangsLoose.not_live`     an edge that hangs loose does not outlast the removals
* `trimCutGraph_branches`   so trimming removes the loose edges and no others

When an edge is removed at a dangling end, the other edges there have been removed before, each at
its own dangling end; so what hangs on the end is made of dangling ends.  Conversely a tree that
hangs loose has a bare end as long as an edge of it is left.
-/

namespace DiskCut
open Std
namespace Mesh
variable {α : Type}

/-- the graph of the edges that satisfy `E` -/
def wiring (m : Mesh α) (E : EdgeId → Prop) : SimpleGraph VertexId where
  Adj v w := v ≠ w ∧ m.Along E v w
  symm := ⟨fun _ _ h => ⟨h.1.symm, Std.Symm.symm _ _ h.2⟩⟩
  loopless := ⟨fun _ h => h.1 rfl⟩

/-- the vertices that are connected to `v` -/
def part (m : Mesh α) (E : EdgeId → Prop) (v : VertexId) : Set VertexId := {u | m.Walk E v u}

/-- the edges of the graph but `e` -/
def Without (m : Mesh α) (K : ExtTreeSet EdgeId) (e d : EdgeId) : Prop := m.InGraph K d ∧ d ≠ e

/-- what is connected to the end `v` of edge `e` without that edge is a tree, with neither a
singular vertex nor an edge that cannot be removed, and the other end `w` is not in it -/
structure HangsLoose (m : Mesh α) (K : ExtTreeSet EdgeId) (e : EdgeId) (v w : VertexId) : Prop where
  tree : ((m.wiring (m.Without K e)).induce (m.part (m.Without K e) v)).IsTree
  regular : ∀ u ∈ m.part (m.Without K e) v, u ∉ m.singularities
  removable : ∀ u ∈ m.part (m.Without K e) v, ∀ d, m.IsEnd d u → m.Without K e d → m.IsRemovable K d
  apart : w ∉ m.part (m.Without K e) v

section
variable {m : Mesh α} {K : ExtTreeSet EdgeId} {h : List Removal} {x y : Removal} {e d : EdgeId}
  {E : EdgeId → Prop} {u v w : VertexId}

/-- a part is connected -/
theorem connected_part (m : Mesh α) (E : EdgeId → Prop) (v : VertexId) :
    ((m.wiring E).induce (m.part E v)).Connected := by
  rw [SimpleGraph.connected_iff_exists_forall_reachable]
  refine ⟨⟨v, .refl⟩, fun ⟨w, hw⟩ => ?_⟩
  induction hw with
  | refl => exact .refl _
  | @tail b c hb hstep ih =>
    by_cases hbc : b = c
    · subst hbc
      exact ih
    · have hadj : ((m.wiring E).induce (m.part E v)).Adj ⟨b, hb⟩ ⟨c, hb.tail hstep⟩ := ⟨hbc, hstep⟩
      exact ih.trans hadj.reachable

/-! ## what hangs on a dangling end -/

/-- the removals `h`, each taken from its dangling end to the other end, lead from `v` to `r` -/
inductive HangsOn (h : List Removal) (r : VertexId) : VertexId → Prop where
  | root : HangsOn h r r
  | leaf {y : Removal} : y ∈ h → HangsOn h r y.across → HangsOn h r y.leaf

theorem Peeled.of_append {pre : List Removal} (hp : Peeled m K (pre ++ h)) : Peeled m K h := by
  induction pre with
  | nil => exact hp
  | cons x pre ih =>
    cases hp with
    | remove hp _ _ => exact ih hp

theorem Peeled.eq_of_leaf (hp : Peeled m K h) (hx : x ∈ h) (hy : y ∈ h) (hxy : x.leaf = y.leaf) :
    x = y :=
  List.inj_on_of_nodup_map hp.nodup_leaves hx hy hxy

/-- every edge at a dangling end was removed, there or at its other end -/
theorem Peeled.exists_removal (hp : Peeled m K h) (hy : y ∈ h) (hd : m.InGraph K d)
    (hend : m.IsEnd d y.leaf) : ∃ z ∈ h, z.edge = d ∧ (z = y ∨ z.across = y.leaf) := by
  by_contra hnone
  refine hp.not_live_leaf y hy d ⟨hd, fun z hz hzd => hnone ⟨z, hz, hzd, ?_⟩⟩ hend
  subst hzd
  rcases (hp.joins z hz).isEnd_iff.mp hend with hleaf | hacross
  · exact .inl (hp.eq_of_leaf hz hy hleaf.symm)
  · exact .inr hacross.symm

theorem HangsOn.exists_leaf {h : List Removal} {x : Removal} {u : VertexId}
    (hu : HangsOn h x.leaf u) : ∃ y ∈ x :: h, y.leaf = u ∧ (y = x ∨ HangsOn h x.leaf y.across) := by
  cases hu with
  | root => exact ⟨x, List.mem_cons_self, rfl, .inl rfl⟩
  | leaf hy hacross => exact ⟨_, List.mem_cons_of_mem _ hy, rfl, .inr hacross⟩

/-- without the removed edge, only what hangs on the dangling end is connected to it -/
theorem Peeled.hangsOn_of_walk (hp : Peeled m K (x :: h))
    (hwalk : m.Walk (m.Without K x.edge) x.leaf u) : HangsOn h x.leaf u := by
  induction hwalk with
  | refl => exact .root
  | @tail b c _ hstep ih =>
    obtain ⟨d, ⟨hd, hdx⟩, hjoin⟩ := hstep
    obtain ⟨y, hy, rfl, hhangs⟩ := ih.exists_leaf
    obtain ⟨z, hz, rfl, hzy⟩ := hp.exists_removal hy hd hjoin.isEnd_left
    have hzx : z ≠ x := fun heq => hdx (heq ▸ rfl)
    rcases hzy with rfl | hacross
    · rw [(hp.joins z hz).eq_of_joins hjoin]
      exact hhangs.resolve_left hzx
    · have hz' := (List.mem_cons.mp hz).resolve_left hzx
      have hleaf := ((hacross ▸ hp.joins z hz).symm).eq_of_joins hjoin
      rw [hleaf]
      exact .leaf hz' (hacross ▸ ih)

/-- the removed edge does not lead back -/
theorem Peeled.apart (hp : Peeled m K (x :: h)) (hne : x.leaf ≠ x.across) :
    x.across ∉ m.part (m.Without K x.edge) x.leaf := by
  intro hwalk
  obtain ⟨y, hy, hleaf, _⟩ := (hp.hangsOn_of_walk hwalk).exists_leaf
  cases hp with
  | remove hp hdangle hjoin =>
    rcases List.mem_cons.mp hy with rfl | hy
    · exact hne hleaf
    · exact hp.not_live_leaf y hy x.edge hdangle.live (hleaf ▸ hjoin.isEnd_right)

/-! ## what was removed hung loose -/

/-- past an edge of the wiring there is a way that does not use the edge -/
theorem walk_of_reachable_deleteEdges {a b : VertexId} (hjoin : m.Joins e a b)
    (hreach : ((m.wiring (m.InGraph K)).deleteEdges {s(a, b)}).Reachable v w) :
    m.Walk (m.Without K e) v w := by
  obtain ⟨p⟩ := hreach
  induction p with
  | nil => exact .refl
  | @cons a' b' _ hadj _ ih =>
    obtain ⟨⟨_, d, hd, hjoin'⟩, hother⟩ := SimpleGraph.deleteEdges_adj.mp hadj
    have hde : d ≠ e := by
      intro heq
      subst heq
      rcases hjoin.eq_or_eq hjoin' with ⟨rfl, rfl⟩ | ⟨rfl, rfl⟩
      · exact hother rfl
      · exact hother Sym2.eq_swap
    exact Relation.ReflTransGen.head ⟨d, ⟨hd, hde⟩, hjoin'⟩ ih

/-- the edge lies on a cycle of the edges that satisfy `E` -/
def OnCycle (m : Mesh α) (E : EdgeId → Prop) (e : EdgeId) : Prop :=
  ∃ a b, m.Joins e a b ∧ ∃ u, ∃ p : (m.wiring E).Walk u u, p.IsCycle ∧ s(a, b) ∈ p.edges

theorem OnCycle.mono {F : EdgeId → Prop} (hEF : ∀ e, E e → F e) (he : m.OnCycle E e) :
    m.OnCycle F e := by
  obtain ⟨a, b, hjoin, u, p, hcycle, hmem⟩ := he
  have hle : m.wiring E ≤ m.wiring F := fun _ _ ⟨hne, e, he, hjoin⟩ => ⟨hne, e, hEF e he, hjoin⟩
  exact ⟨a, b, hjoin, u, p.mapLe hle, hcycle.mapLe hle,
    (SimpleGraph.Walk.edges_mapLe_eq_edges hle p).symm ▸ hmem⟩

theorem OnCycle.of_induce {P : Set VertexId} {a b u : P} {p : ((m.wiring E).induce P).Walk u u}
    (hcycle : p.IsCycle) (hjoin : m.Joins e a b) (hmem : s(a, b) ∈ p.edges) : m.OnCycle E e := by
  refine ⟨a, b, hjoin, (SimpleGraph.Embedding.induce P).toHom u, p.map _,
    hcycle.map Subtype.val_injective, ?_⟩
  rw [SimpleGraph.Walk.edges_map]
  exact List.mem_map_of_mem hmem

variable (hne : ∀ {e a b}, m.Joins e a b → a ≠ b)
include hne

/-- no removed edge is on a cycle -/
theorem Peeled.not_onCycle (hp : Peeled m K h) (hx : x ∈ h) : ¬ m.OnCycle (m.InGraph K) x.edge := by
  intro ⟨a, b, hjoin, u, p, hcycle, hmem⟩
  obtain ⟨pre, post, rfl⟩ := List.append_of_mem hx
  have hreach := (SimpleGraph.adj_and_reachable_delete_edges_iff_exists_cycle.mpr
    ⟨u, p, hcycle, hmem⟩).2
  have hwalk := walk_of_reachable_deleteEdges hjoin hreach
  have hends := hp.joins x hx
  have hapart := hp.of_append.apart (hne hends)
  rcases hends.eq_or_eq hjoin with ⟨rfl, rfl⟩ | ⟨rfl, rfl⟩
  · exact hapart hwalk
  · exact hapart hwalk.symm

/-- an edge that was removed hung loose at its dangling end -/
theorem Peeled.hangsLoose (hp : Peeled m K (x :: h)) : m.HangsLoose K x.edge x.leaf x.across := by
  have gone : ∀ u ∈ m.part (m.Without K x.edge) x.leaf, ∃ y ∈ x :: h, y.leaf = u := by
    intro u hu
    obtain ⟨y, hy, hleaf, _⟩ := (hp.hangsOn_of_walk hu).exists_leaf
    exact ⟨y, hy, hleaf⟩
  have removed : ∀ u ∈ m.part (m.Without K x.edge) x.leaf, ∀ d, m.IsEnd d u →
      m.Without K x.edge d → ∃ z ∈ x :: h, z.edge = d := by
    intro u hu d hend hd
    obtain ⟨y, hy, rfl⟩ := gone u hu
    obtain ⟨z, hz, hzd, _⟩ := hp.exists_removal hy hd.1 hend
    exact ⟨z, hz, hzd⟩
  refine ⟨⟨connected_part m _ _, ?_⟩, ?_, ?_, hp.apart ?_⟩
  · -- a cycle would have a first edge, and that one was removed
    intro v p hcycle
    cases p with
    | nil => exact hcycle.not_nil .nil
    | @cons _ w _ hadj p =>
      obtain ⟨d, hd, hjoin⟩ := hadj.2
      obtain ⟨z, hz, rfl⟩ := removed v v.2 d hjoin.isEnd_left hd
      refine hp.not_onCycle hne hz (.mono (fun _ hd => hd.1) (.of_induce hcycle hjoin ?_))
      exact List.mem_cons_self
  · intro u hu
    obtain ⟨y, hy, rfl⟩ := gone u hu
    exact hp.regular y hy
  · intro u hu d hend hd
    obtain ⟨z, hz, rfl⟩ := removed u hu d hend hd
    exact hp.removable z hz
  · exact hne (hp.joins x List.mem_cons_self)

end

/-! ## what hangs loose is removed -/

section
variable [Scalar α] {m : Mesh α} {K : ExtTreeSet EdgeId} {h : List Removal} {g : CutGraph}
  {e : EdgeId} {E : EdgeId → Prop} {v w : VertexId} (valid : m.Valid)
include valid

theorem Valid.finite_part (hv : m.IsEnd e v) : Finite (m.part E v) := by
  refine Set.Finite.to_subtype ((Set.finite_lt_nat m.vertices.size).subset fun u hu => ?_)
  cases hu with
  | refl => exact valid.lt_of_isEnd hv
  | tail _ hstep =>
    obtain ⟨d, _, hjoin⟩ := hstep
    exact valid.lt_of_isEnd hjoin.isEnd_right

variable (fit : m.Trimmable K) (done : ∀ v e, ¬ m.Dangles K h v e)
include fit done

omit [Scalar α] valid in
/-- at the end every removable edge at a regular vertex has a second edge beside it -/
theorem exists_second (hregular : v ∉ m.singularities) (hrem : m.IsRemovable K e)
    (hlive : m.Live K h e) (hv : m.IsEnd e v) :
    ∃ d w, m.Live K h d ∧ d ≠ e ∧ m.Joins d v w := by
  by_contra hnone
  refine done v e ⟨hregular, hrem, hlive, hv, fun d hd hdv => ?_⟩
  obtain ⟨w, hjoin⟩ := fit.exists_joins hdv
  by_contra hde
  exact hnone ⟨d, w, hd, hde, hjoin⟩

/-- an edge that hangs loose does not outlast the removals -/
theorem HangsLoose.not_live (loose : m.HangsLoose K e v w) (hrem : m.IsRemovable K e)
    (hjoin : m.Joins e v w) : ¬ m.Live K h e := by
  intro hlive
  let P := m.part (m.Without K e) v
  let left : EdgeId → Prop := fun d => m.Live K h d ∧ d ≠ e
  have step : ∀ {u d b}, u ∈ P → left d → m.Joins d u b → b ∈ P := fun hu hd hjoin =>
    Relation.ReflTransGen.tail hu ⟨_, ⟨hd.1.1, hd.2⟩, hjoin⟩
  have _ : Finite P := valid.finite_part hjoin.isEnd_left
  have hle : (m.wiring left).induce P ≤ (m.wiring (m.Without K e)).induce P :=
    fun _ _ hadj => ⟨hadj.1, hadj.2.imp fun _ hd => ⟨⟨hd.1.1.1, hd.1.2⟩, hd.2⟩⟩
  have acyclic : ((m.wiring left).induce P).IsAcyclic := loose.tree.isAcyclic.anti hle
  have root : v ∈ P := Relation.ReflTransGen.refl
  -- as long as an edge of the tree is left, only the root can be a bare end
  have branch : NoBareEnd ((m.wiring left).induce P) {⟨v, root⟩} := by
    intro ⟨u, hu⟩ huv ⟨a, ha⟩ hadj
    obtain ⟨d, hd, hda⟩ := hadj.2
    obtain ⟨d', b, hd', hne, hdb⟩ := exists_second fit done (loose.regular u hu)
      (loose.removable u hu d hda.isEnd_left ⟨hd.1.1, hd.2⟩) hd.1 hda.isEnd_left
    have hd'e : d' ≠ e := by
      intro heq
      subst heq
      rcases hjoin.isEnd_iff.mp hdb.isEnd_left with rfl | rfl
      · exact huv rfl
      · exact loose.apart hu
    refine ⟨⟨b, step hu ⟨hd', hd'e⟩ hdb⟩, fun heq => hne ?_, fit.ne_of_joins hdb, d', ⟨hd', hd'e⟩,
      hdb⟩
    obtain rfl := congrArg Subtype.val heq
    exact valid.sound.eq_of_joins hdb hda
  obtain ⟨d, a, hd, hde, hda⟩ := exists_second fit done (loose.regular v root) hrem hlive
    hjoin.isEnd_left
  have hadj : ((m.wiring left).induce P).Adj ⟨v, root⟩ ⟨a, step root ⟨hd, hde⟩ hda⟩ :=
    ⟨fit.ne_of_joins hda, d, ⟨hd, hde⟩, hda⟩
  -- so the path that starts with an edge at the root would come back to it
  obtain ⟨_, rfl, q, hq, hsub⟩ := exists_path_to_marked acyclic branch
    (p := .cons hadj .nil) (by simp [hadj.ne]) SimpleGraph.Walk.not_nil_cons
  have hmem := hsub _ List.mem_cons_self
  rw [SimpleGraph.Walk.edges_eq_nil.mpr (SimpleGraph.Walk.isPath_iff_nil.mp hq)] at hmem
  exact List.not_mem_nil hmem

end

/-! ## what trimming removes -/

/-- the candidate can be removed, and hangs loose at one of its ends -/
def IsLoose (m : Mesh α) (K : ExtTreeSet EdgeId) (e : EdgeId) : Prop :=
  m.IsRemovable K e ∧ ∃ v w, m.Joins e v w ∧ m.HangsLoose K e v w

/-- the graph `g` has the candidates that are not loose; so it has the features and the edges of
cycles among them, and ends only where something anchors it -/
structure LooseGone (m : Mesh α) (K : ExtTreeSet EdgeId) (g : CutGraph) : Prop where
  edges : ∀ e, e ∈ g.edges ↔ e ∈ K ∧ ¬ m.IsLoose K e
  count : g.removed + g.size = K.size
  feature : ∀ e ∈ K, m.IsFeature e → e ∈ g.edges
  cycle : ∀ e ∈ K, m.OnCycle (m.InGraph K) e → e ∈ g.edges
  leaves : ∃ vs, g.leaves m = .ok vs ∧ ∀ v ∈ vs, v ∈ m.singularities ∨
    ∃ d, m.IsEnd d v ∧ m.InGraph K d ∧ ¬ m.IsRemovable K d

section
variable {m : Mesh α} {K : ExtTreeSet EdgeId} {h : List Removal} {g : CutGraph} {e : EdgeId}
  {v : VertexId}

namespace Trimmed

theorem live_iff (ht : Trimmed m K h g) : e ∈ g.edges ↔ e ∈ K ∧ m.Live K h e := by
  rw [ht.edges]
  exact ⟨fun ⟨he, hlive⟩ => ⟨he, .inl he, hlive⟩, fun ⟨he, hlive⟩ => ⟨he, hlive.2⟩⟩

theorem exists_removal (ht : Trimmed m K h g) (he : e ∈ K) (hgone : e ∉ g.edges) :
    ∃ x ∈ h, x.edge = e := by
  by_contra hnone
  exact hgone ((ht.edges e).mpr ⟨he, fun x hx hxe => hnone ⟨x, hx, hxe⟩⟩)

/-- each candidate was removed or is left, once -/
theorem count (ht : Trimmed m K h g) : g.removed + g.size = K.size := by
  have hperm : (h.map Removal.edge ++ g.edges.toList).Perm K.toList := by
    refine (List.perm_ext_iff_of_nodup ?_ (nodup_toList K)).mpr fun e => ?_
    · refine List.nodup_append.mpr ⟨ht.peeled.nodup_edges, nodup_toList g.edges, ?_⟩
      rintro d hd _ he rfl
      obtain ⟨x, hx, rfl⟩ := List.mem_map.mp hd
      exact ((ht.edges _).mp (ExtTreeSet.mem_toList.mp he)).2 x hx rfl
    · rw [List.mem_append, List.mem_map, ExtTreeSet.mem_toList, ExtTreeSet.mem_toList]
      refine ⟨?_, fun he => ?_⟩
      · rintro (⟨x, hx, rfl⟩ | he)
        · exact (ht.peeled.removable x hx).1
        · exact ((ht.edges e).mp he).1
      · by_cases hleft : e ∈ g.edges
        · exact .inr hleft
        · exact .inl (ht.exists_removal he hleft)
  have hlength := hperm.length_eq
  rw [List.length_append, List.length_map, ExtTreeSet.length_toList, ExtTreeSet.length_toList]
    at hlength
  rw [ht.removed]
  exact hlength

/-- a leaf that is not singular is at an edge that cannot be removed -/
theorem leaf_anchored (ht : Trimmed m K h g) (fit : m.Trimmable K) (hv : g.IsLeaf m v)
    (hregular : v ∉ m.singularities) : ∃ d, m.IsEnd d v ∧ m.InGraph K d ∧ ¬ m.IsRemovable K d := by
  obtain ⟨e, he, hend, honly⟩ := hv
  have hlive := (ht.live_iff.mp he).2
  by_cases hrem : m.IsRemovable K e
  · obtain ⟨d, w, hd, hde, hjoin⟩ := exists_second fit ht.done hregular hrem hlive hend
    refine ⟨d, hjoin.isEnd_left, hd.1, fun hrem' => hde ?_⟩
    exact honly d (ht.live_iff.mpr ⟨hrem'.1, hd⟩) hjoin.isEnd_left
  · exact ⟨e, hend, hlive.1, hrem⟩

variable [Scalar α]

theorem looseGone (ht : Trimmed m K h g) (valid : m.Valid) (fit : m.Trimmable K) :
    m.LooseGone K g where
  edges := by
    intro e
    refine ⟨fun he => ⟨((ht.edges e).mp he).1, ?_⟩, fun ⟨he, htight⟩ => ?_⟩
    · intro ⟨hrem, v, w, hjoin, loose⟩
      exact loose.not_live valid fit ht.done hrem hjoin (ht.live_iff.mp he).2
    · by_contra hgone
      obtain ⟨x, hx, rfl⟩ := ht.exists_removal he hgone
      obtain ⟨pre, post, rfl⟩ := List.append_of_mem hx
      exact htight ⟨ht.peeled.removable x hx, x.leaf, x.across, ht.peeled.joins x hx,
        ht.peeled.of_append.hangsLoose fit.ne_of_joins⟩
  count := ht.count
  feature := by
    intro e he hfeature
    refine ht.live_iff.mpr ⟨he, ht.peeled.live_of_fixed (.inl he) ?_⟩
    exact fun hrem => hrem.2.not_isFeature hfeature
  cycle := by
    intro e he hcycle
    by_contra hgone
    obtain ⟨x, hx, rfl⟩ := ht.exists_removal he hgone
    exact ht.peeled.not_onCycle fit.ne_of_joins hx hcycle
  leaves := by
    obtain ⟨vs, hok, _, hmem⟩ := CutGraph.leaves_ok (g := g)
      (fun hx => Nat.ne_of_lt (fit.ends_lt hx))
      fun e he => fit.candidate_lt e ((ht.edges e).mp he).1
    refine ⟨vs, hok, fun v hv => or_iff_not_imp_left.mpr ?_⟩
    exact ht.leaf_anchored fit ((hmem v).mp hv)

end Trimmed

/-- trimming the candidates `K` of a valid mesh removes those that hang loose -/
theorem trimCutGraph_branches [Scalar α] (valid : m.Valid) (hK : ∀ e ∈ K, e < m.edges.size) :
    ∃ g, m.trimCutGraph K = .ok g ∧ m.LooseGone K g := by
  have fit := valid.trimmable hK
  obtain ⟨g, h, hok, ht⟩ := trimCutGraph_spec fit
  exact ⟨g, hok, ht.looseGone valid fit⟩

end

/-- of the candidates about the singular vertex, the one that leads to the vertex 0 is loose -/
theorem branches_spiked : ∃ m m' g, tetrahedron.result = .ok m ∧
    m.setSingularity 3 .two = .ok m' ∧ (spiked m').trimCutGraph spikeCandidates = .ok g ∧
    g.edges.toList = [1, 5] ∧ g.removed = 1 ∧ (spiked m').LooseGone spikeCandidates g := by
  obtain ⟨m, m', g, hm, hm', valid, hK, hg, hedges, hremoved⟩ := exists_spiked
  obtain ⟨g', hg', hgone⟩ := trimCutGraph_branches valid hK
  rw [hg] at hg'
  obtain rfl := Except.ok.inj hg'
  exact ⟨m, m', g, hm, hm', hg, hedges, hremoved, hgone⟩

end Mesh
end DiskCut
