import DiskCut.Proofs.Edited
import DiskCut.Proofs.Mesh.Survivors

/-!
# What an update of the edges produces

A completed update depends on the triangles and on the feature edges only.  Plain edges that earlier
edits have left behind, among them those of updates that stopped half way, show in the numbers of
edges.  They show in one more way: a feature edge is not inserted where there is an edge already.

* `recorded? m k`    what a mesh records about the pair `k`, by whatever number
* `Alike m n`        same given part and same feature edges
* `Alike.updated`    so completed updates of both record the same
* `missedPair m n a b`   the pair, where a feature edge can be inserted in one of the meshes only
* `alike_insertFeatureEdge_iff`   and just then the insertion makes a difference
* `Retried missed m n`   `n` has been through the same edits as `m` and through updates that stopped,
                     and the insertions at the pairs `missed` made a difference
* `Retried.clearTopology_eq`, `Retried.alike`   what two such meshes have in common
* `updateEdges_refreshed`   what a completed update of an edited mesh keeps, drops, adds and forgets
* `trace_of_stopped_update`   and what an update that stopped can leave behind
-/

namespace DiskCut
open Std

/-- the curve tag of a feature edge, nothing for a plain one -/
def Edge.mark {α : Type} (x : Edge α) : Option (Option Int) :=
  if x.isFeature then some x.curve else none

namespace Mesh
variable {α : Type} {m m' n n' : Mesh α} {k : VertexId × VertexId}

/-! ## what is recorded about a pair -/

/-- the mark of the edge with the ends `k`, and the triangles at it -/
def recorded? (m : Mesh α) (k : VertexId × VertexId) :
    Option (Option (Option Int) × List TriangleId) :=
  m.edgeIndex[k]?.bind fun e => m.edges[e]?.bind fun x =>
    m.edgeTriangles[e]?.map fun ts => (x.mark, ts)

/-- an edge with the ends `k` is a feature of the curve `curve` -/
def HasFeature (m : Mesh α) (k : VertexId × VertexId) (curve : Option Int) : Prop :=
  ∃ x ∈ m.edges, x.isFeature = true ∧ x.ends = k ∧ x.curve = curve

theorem mark_eq_some_iff {x : Edge α} {curve : Option Int} :
    x.mark = some curve ↔ x.isFeature = true ∧ x.curve = curve := by
  unfold Edge.mark
  cases x.isFeature <;> simp

theorem mark_eq_none_iff {x : Edge α} : x.mark = none ↔ ¬ x.isFeature = true := by
  unfold Edge.mark
  cases x.isFeature <;> simp

theorem hasFeature_iff {curve : Option Int} :
    m.HasFeature k curve ↔ ∃ x ∈ m.edges, x.ends = k ∧ x.mark = some curve := by
  unfold HasFeature
  simp only [mark_eq_some_iff]
  exact exists_congr fun x => and_congr_right fun _ => by tauto

theorem hasFeature_of_filter
    (h : m'.edges.toList.filter Edge.isFeature = m.edges.toList.filter Edge.isFeature)
    (curve : Option Int) : m'.HasFeature k curve ↔ m.HasFeature k curve := by
  have member : ∀ x : Edge α, x ∈ m'.edges ∧ x.isFeature = true ↔
      x ∈ m.edges ∧ x.isFeature = true := by
    intro x
    rw [← Array.mem_toList_iff, ← Array.mem_toList_iff, ← List.mem_filter, h, List.mem_filter]
  unfold HasFeature
  refine exists_congr fun x => ?_
  rw [← and_assoc, member x, and_assoc]

/-- a table knows each pair by one edge, whose list holds the triangles with that side -/
theorem Adjacent.recorded?_eq_some_iff (adj : m.Adjacent) (tab : m.Tabled)
    {mark : Option (Option Int)} {ts : List TriangleId} :
    m.recorded? k = some (mark, ts) ↔
      m.trianglesOn k = ts ∧ ∃ x ∈ m.edges, x.ends = k ∧ x.mark = mark := by
  unfold recorded?
  simp only [Option.bind_eq_some_iff, Option.map_eq_some_iff, Prod.mk.injEq]
  refine ⟨?_, ?_⟩
  · rintro ⟨e, he, x, hx, ts', hts, hmark, rfl⟩
    obtain rfl := tab.ends_eq hx he
    rw [adj.present hx] at hts
    exact ⟨Option.some.inj hts, x, Array.mem_of_getElem? hx, rfl, hmark⟩
  · rintro ⟨rfl, x, hx, rfl, hmark⟩
    obtain ⟨e, hx⟩ := Array.mem_iff_getElem?.mp hx
    exact ⟨e, tab.index_of_edge hx, x, hx, _, adj.present hx, hmark, rfl⟩

section
variable [Scalar α]

theorem Refreshed.hasFeature_iff (h : Refreshed m m') {curve : Option Int} :
    m'.HasFeature k curve ↔ m.HasFeature k curve :=
  hasFeature_of_filter h.features_eq curve

theorem Refreshed.given_eq (h : Refreshed m m') : m'.given = m.given := by
  unfold given clearTopology
  rw [h.vertices, h.triangles, h.lines, h.singularities]

/-- a completed update records the triangles and the features of the mesh that it starts from -/
theorem Refreshed.recorded?_eq_some_iff (h : Refreshed m m') {mark : Option (Option Int)}
    {ts : List TriangleId} : m'.recorded? k = some (mark, ts) ↔ m.trianglesOn k = ts ∧
      ((∃ curve, mark = some curve ∧ m.HasFeature k curve) ∨
        mark = none ∧ m.trianglesOn k ≠ [] ∧ ∀ curve, ¬ m.HasFeature k curve) := by
  rw [h.adjacent.recorded?_eq_some_iff h.tabled, trianglesOn_of_triangles h.triangles]
  refine and_congr_right fun _ => ⟨?_, ?_⟩
  · rintro ⟨x, hx, hends, rfl⟩
    cases hmark : x.mark with
    | some curve =>
      exact .inl ⟨curve, rfl, h.hasFeature_iff.mp (Mesh.hasFeature_iff.mpr ⟨x, hx, hends, hmark⟩)⟩
    | none =>
      -- a second edge with these ends would be the same one
      have hno : ∀ curve, ¬ m.HasFeature k curve := by
        intro curve hcurve
        obtain ⟨y, hy, hyends, hymark⟩ := Mesh.hasFeature_iff.mp (h.hasFeature_iff.mpr hcurve)
        obtain ⟨e, hx⟩ := Array.mem_iff_getElem?.mp hx
        obtain ⟨d, hy⟩ := Array.mem_iff_getElem?.mp hy
        obtain rfl := h.tabled.eq_of_ends hx hy (hends.trans hyends.symm)
        rw [hx] at hy
        rw [Option.some.inj hy, hymark] at hmark
        cases hmark
      refine .inr ⟨rfl, ?_, hno⟩
      rw [trianglesOn_ne_nil_iff]
      have hpair : k ∈ m'.pairs := List.mem_map.mpr ⟨x, Array.mem_toList_iff.mpr hx, hends⟩
      exact ((h.mem_pairs k).mp hpair).resolve_right fun ⟨y, hy, hf, hyends⟩ =>
        hno y.curve ⟨y, hy, hf, hyends, rfl⟩
  · rintro (⟨curve, rfl, hcurve⟩ | ⟨rfl, hside, hno⟩)
    · exact Mesh.hasFeature_iff.mp (h.hasFeature_iff.mpr hcurve)
    · have hpair := (h.mem_pairs k).mpr (.inl (trianglesOn_ne_nil_iff.mp hside))
      obtain ⟨x, hx, hends⟩ := List.mem_map.mp hpair
      refine ⟨x, Array.mem_toList_iff.mp hx, hends, mark_eq_none_iff.mpr fun hf => ?_⟩
      exact hno x.curve (h.hasFeature_iff.mp ⟨x, Array.mem_toList_iff.mp hx, hf, hends, rfl⟩)

end

/-! ## meshes with the same given part and the same features -/

section
variable [Scalar α]

/-- same vertices, normals apart, same triangles, lines and singularities, and same feature edges -/
structure Alike (m n : Mesh α) : Prop where
  given : n.given = m.given
  feature : ∀ k curve, n.HasFeature k curve ↔ m.HasFeature k curve

theorem Alike.refl (m : Mesh α) : Alike m m := ⟨rfl, fun _ _ => Iff.rfl⟩

theorem Alike.symm (h : Alike m n) : Alike n m :=
  ⟨h.given.symm, fun k curve => (h.feature k curve).symm⟩

theorem Alike.trans {p : Mesh α} (h : Alike m n) (h' : Alike n p) : Alike m p :=
  ⟨h'.given.trans h.given, fun k curve => (h'.feature k curve).trans (h.feature k curve)⟩

/-- completed updates of meshes that are alike record the same about every pair -/
theorem Alike.updated (h : Alike m n) (hm : m.Kept) (hn : n.Kept) (hok : m.updateEdges = .ok m')
    (hok' : n.updateEdges = .ok n') :
    n'.given = m'.given ∧ ∀ k, n'.recorded? k = m'.recorded? k := by
  have hm' := hm.refreshed hok
  have hn' := hn.refreshed hok'
  have same : ∀ k, n.trianglesOn k = m.trianglesOn k :=
    trianglesOn_of_triangles (triangles_of_given h.given)
  refine ⟨hn'.given_eq.trans (h.given.trans hm'.given_eq.symm), fun k => ?_⟩
  refine Option.ext fun ⟨mark, ts⟩ => ?_
  rw [hn'.recorded?_eq_some_iff, hm'.recorded?_eq_some_iff, same]
  simp only [h.feature]

/-! ## the ground that features are drawn on -/

theorem clearTopology_of_given (h : m'.given = m.given) : m'.clearTopology = m.clearTopology :=
  (congrArg (fun x : Mesh α => { x with lines := #[] }) h :)

theorem given_of_clearTopology (h : m'.clearTopology = m.clearTopology)
    (lines : m'.lines = m.lines) : m'.given = m.given := by
  unfold given
  rw [h, lines]

section
variable (h : n.clearTopology = m.clearTopology)
include h

/-- edits that leave the given part alone leave the ground alone -/
theorem clearTopology_eq_of_given (hm : m'.given = m.given) (hn : n'.given = n.given) :
    n'.clearTopology = m'.clearTopology :=
  (clearTopology_of_given hn).trans (h.trans (clearTopology_of_given hm).symm)

theorem clearTopology_addVertex (position : Vec3 α) (entity : Option Entity) :
    (n.addVertex position entity).clearTopology = (m.addVertex position entity).clearTopology := by
  have push : ∀ m : Mesh α, (m.addVertex position entity).clearTopology = { m.clearTopology with
      vertices := m.clearTopology.vertices.push ⟨position, entity, .zero⟩ } := by
    intro m
    unfold Mesh.clearTopology Mesh.addVertex
    simp only [Array.map_push]
  rw [push, push, h]

theorem clearTopology_setCorner {t : TriangleId} {corner : Nat} {v : VertexId}
    (hm : m.setCorner t corner v = .ok m') (hn : n.setCorner t corner v = .ok n') :
    n'.clearTopology = m'.clearTopology := by
  obtain ⟨hlt, _, rfl⟩ := setCorner_eq_ok_iff.mp hm
  obtain ⟨_, _, rfl⟩ := setCorner_eq_ok_iff.mp hn
  exact (congrArg (fun x : Mesh α =>
    { x with triangles := x.triangles.modify t (·.set ⟨corner, hlt⟩ v) }) h :)

theorem clearTopology_setSingularity {v : VertexId} {kind : SingularityKind}
    (hm : m.setSingularity v kind = .ok m') (hn : n.setSingularity v kind = .ok n') :
    n'.clearTopology = m'.clearTopology := by
  obtain ⟨_, _, rfl⟩ := setSingularity_eq_ok_iff.mp hm
  obtain ⟨_, _, rfl⟩ := setSingularity_eq_ok_iff.mp hn
  exact (congrArg (fun x : Mesh α =>
    { x with singularities := x.singularities.insert v kind }) h :)

end

theorem clearTopology_insertFeatureEdge (m : Mesh α) (a b : VertexId) (curve : Option Int) :
    (m.insertFeatureEdge a b curve).1.clearTopology = m.clearTopology := by
  rcases insertFeatureEdge_cases m a b curve with ⟨_, _, hins⟩ | ⟨_, hins⟩
  · rw [hins]
  · rw [hins]
    rfl

/-! ## edits of meshes that are alike -/

/-- recording sides adds no feature -/
theorem Joining.alike {keys : List (VertexId × VertexId)}
    {done : List ((VertexId × VertexId) × TriangleId)} (h : Joining m keys done m')
    (tab : m.Tabled) : Alike m m' where
  given := given_of_withoutEdges h.frame
  feature := fun k => hasFeature_of_filter (by
    rw [h.edges_eq tab, List.filter_append, filter_isFeature_plain, List.append_nil])

/-- an update of the edges changes neither the given part nor the features, completed or not -/
theorem Kept.alike_updateEdges (h : m.Kept) : Alike m (meshAfter m.updateEdges) where
  given := h.given_updateEdges
  feature := by
    obtain ⟨_, _, hseen⟩ := h.traced
    cases hx : m.updateEdges with
    | ok last => exact fun k => hasFeature_of_filter (h.refreshed hx).features_eq
    | error stopped =>
      rcases updateEdges_cases hseen.tabled h.marks with
        ⟨last, hok, _⟩ | ⟨stopped', pre, x, post, hstop, _, _, _, hjoin, _⟩
      · rw [hok] at hx
        cases hx
      · rw [hstop] at hx
        exact Except.error.inj hx ▸ (hjoin.alike hseen.tabled).feature

theorem alike_updateNormals (m : Mesh α) : Alike m (meshAfter m.updateNormals) where
  given := given_updateNormals m
  feature := by
    have keeps : ∀ {m m' : Mesh α}, m'.clearNormals = m.clearNormals → ∀ k curve,
        m'.HasFeature k curve → m.HasFeature k curve := by
      rintro m m' h k curve ⟨x, hx, hf, rfl, rfl⟩
      obtain ⟨e, hx⟩ := Array.mem_iff_getElem?.mp hx
      obtain ⟨y, hy, hends, hflag, hcurve⟩ := edge_of_clearNormals h hx
      exact ⟨y, Array.mem_of_getElem? hy, hflag.trans hf, hends, hcurve⟩
    have h := editsNormals_updateNormals m
    exact fun k curve => ⟨keeps h k curve, keeps h.symm k curve⟩

theorem alike_updateFeatureIncidence (hok : m.updateFeatureIncidence = .ok m') : Alike m m' where
  given := given_updateFeatureIncidence hok
  feature := by
    obtain ⟨stars, _, hok⟩ := bind_eq_ok_iff.mp hok
    obtain rfl := Except.ok.inj hok
    exact fun _ _ => Iff.rfl

theorem alike_insertEdge (m : Mesh α) (a b : VertexId) : Alike m (m.insertEdge a b).1 := by
  rcases insertEdge_cases m a b with ⟨e, _, hins⟩ | ⟨_, hins⟩
  · rw [hins]
    exact .refl m
  · rw [hins]
    refine ⟨rfl, fun k => hasFeature_of_filter ?_⟩
    show (m.edges.push _).toList.filter _ = _
    rw [Array.toList_push, List.filter_append]
    exact List.append_nil _

theorem hasFeature_insertFeatureEdge {a b : VertexId} {tag : Option Int}
    (fresh : m.findEdge? a b = none) {curve : Option Int} :
    (m.insertFeatureEdge a b tag).1.HasFeature k curve ↔
      m.HasFeature k curve ∨ edgeKey a b = k ∧ tag = curve := by
  unfold insertFeatureEdge
  rw [fresh]
  unfold HasFeature
  simp only [pushEdge, Array.mem_push, featureEdge]
  refine ⟨?_, ?_⟩
  · rintro ⟨x, hx | rfl, hf, hends, hcurve⟩
    · exact .inl ⟨x, hx, hf, hends, hcurve⟩
    · exact .inr ⟨hends, hcurve⟩
  · rintro (⟨x, hx, hf, hends, hcurve⟩ | ⟨hends, hcurve⟩)
    · exact ⟨x, .inl hx, hf, hends, hcurve⟩
    · exact ⟨_, .inr rfl, rfl, hends, hcurve⟩

theorem lines_insertFeatureEdge (m : Mesh α) (a b : VertexId) (tag : Option Int) :
    (m.insertFeatureEdge a b tag).1.lines =
      if (m.findEdge? a b).isSome then m.lines else m.lines.push ⟨edgeKey a b, tag⟩ := by
  unfold insertFeatureEdge
  cases m.findEdge? a b <;> rfl

/-- the pair of `a` and `b`, where one of the meshes has an edge and the other one has none -/
def missedPair (m n : Mesh α) (a b : VertexId) : List (VertexId × VertexId) :=
  if (m.findEdge? a b).isSome = (n.findEdge? a b).isSome then [] else [edgeKey a b]

omit [Scalar α] in
theorem missedPair_eq_nil_iff {a b : VertexId} :
    missedPair m n a b = [] ↔ (m.findEdge? a b).isSome = (n.findEdge? a b).isSome := by
  unfold missedPair
  split <;> simp_all

/-- a feature edge inserted in meshes that are alike leaves them alike just when both have an edge
there, or neither -/
theorem alike_insertFeatureEdge_iff (h : Alike m n) {a b : VertexId} {tag : Option Int} :
    Alike (m.insertFeatureEdge a b tag).1 (n.insertFeatureEdge a b tag).1 ↔
      missedPair m n a b = [] := by
  have hlines := lines_of_given h.given
  rw [missedPair_eq_nil_iff]
  refine ⟨fun hnext => ?_, fun both => ⟨?_, fun k curve => ?_⟩⟩
  · -- an insertion in one mesh only makes its list of lines the longer one
    have hsize := congrArg Array.size (lines_of_given hnext.given)
    rw [lines_insertFeatureEdge, lines_insertFeatureEdge, hlines] at hsize
    cases hm : (m.findEdge? a b).isSome <;> cases hn : (n.findEdge? a b).isSome <;>
      simp [hm, hn] at hsize ⊢
  · refine given_of_clearTopology ?_ ?_
    · rw [clearTopology_insertFeatureEdge, clearTopology_insertFeatureEdge]
      exact clearTopology_of_given h.given
    · rw [lines_insertFeatureEdge, lines_insertFeatureEdge, both, hlines]
  · cases hm : m.findEdge? a b with
    | some e =>
      rw [hm] at both
      obtain ⟨d, hn⟩ := Option.isSome_iff_exists.mp both.symm
      unfold Mesh.insertFeatureEdge
      rw [hm, hn]
      exact h.feature k curve
    | none =>
      rw [hm] at both
      have hn : n.findEdge? a b = none :=
        Option.isNone_iff_eq_none.mp (Option.isSome_eq_false_iff.mp both.symm)
      rw [hasFeature_insertFeatureEdge hm, hasFeature_insertFeatureEdge hn, h.feature]

theorem Alike.addVertex (h : Alike m n) (position : Vec3 α) (entity : Option Entity) :
    Alike (m.addVertex position entity) (n.addVertex position entity) where
  given := by
    have hlines := lines_of_given h.given
    have hground := clearTopology_addVertex (clearTopology_of_given h.given) position entity
    exact given_of_clearTopology hground hlines
  feature := h.feature

theorem Alike.setCorner (h : Alike m n) {t : TriangleId} {corner : Nat} {v : VertexId}
    (hm : m.setCorner t corner v = .ok m') (hn : n.setCorner t corner v = .ok n') :
    Alike m' n' := by
  have hlines := lines_of_given h.given
  have hground := clearTopology_setCorner (clearTopology_of_given h.given) hm hn
  obtain ⟨_, _, rfl⟩ := setCorner_eq_ok_iff.mp hm
  obtain ⟨_, _, rfl⟩ := setCorner_eq_ok_iff.mp hn
  exact ⟨given_of_clearTopology hground hlines, h.feature⟩

theorem Alike.setSingularity (h : Alike m n) {v : VertexId} {kind : SingularityKind}
    (hm : m.setSingularity v kind = .ok m') (hn : n.setSingularity v kind = .ok n') :
    Alike m' n' := by
  have hlines := lines_of_given h.given
  have hground := clearTopology_setSingularity (clearTopology_of_given h.given) hm hn
  obtain ⟨_, _, rfl⟩ := setSingularity_eq_ok_iff.mp hm
  obtain ⟨_, _, rfl⟩ := setSingularity_eq_ok_iff.mp hn
  exact ⟨given_of_clearTopology hground hlines, h.feature⟩

/-- a derivation starts from the given part -/
theorem Alike.deriveTopology (h : Alike m n) : n.deriveTopology = m.deriveTopology := by
  have start : ∀ m : Mesh α, m.deriveTopology = (m.given.updateEdges >>= fun joined =>
      joined.updateNormals >>= fun oriented => oriented.markFeatureLines >>= fun marked =>
        leaving marked marked.updateFeatureIncidence) := fun _ => rfl
  rw [start, start, h.given]

/-! ## runs with updates that stop -/

/-- the same edits have led to `m` and to `n`, but on the way to `n` there were updates of the edges
that stopped.  At the pairs `missed` a feature edge was to be inserted while one of the two had an
edge there and the other one had none; the topology was not cleared since. -/
inductive Retried : List (VertexId × VertexId) → Mesh α → Mesh α → Prop where
  | start {m : Mesh α} : Edited m → Retried [] m m
  | stopped {missed : List (VertexId × VertexId)} {m n : Mesh α} {left : Interrupted α} :
      Retried missed m n → n.updateEdges = .error left → Retried missed m left.mesh
  | addVertex {missed : List (VertexId × VertexId)} {m n : Mesh α} (position : Vec3 α)
      (entity : Option Entity) : Retried missed m n →
      Retried missed (m.addVertex position entity) (n.addVertex position entity)
  | setCorner {missed : List (VertexId × VertexId)} {m n m' n' : Mesh α} {t : TriangleId}
      {corner : Nat} {v : VertexId} : Retried missed m n → m.setCorner t corner v = .ok m' →
      n.setCorner t corner v = .ok n' → Retried missed m' n'
  | insertEdge {missed : List (VertexId × VertexId)} {m n : Mesh α} (a b : VertexId) :
      Retried missed m n → Retried missed (m.insertEdge a b).1 (n.insertEdge a b).1
  | insertFeatureEdge {missed : List (VertexId × VertexId)} {m n : Mesh α} (a b : VertexId)
      (curve : Option Int) : Retried missed m n →
      Retried (missedPair m n a b ++ missed) (m.insertFeatureEdge a b curve).1
        (n.insertFeatureEdge a b curve).1
  | clearTopology {missed : List (VertexId × VertexId)} {m n : Mesh α} :
      Retried missed m n → Retried [] m.clearTopology n.clearTopology
  | updateFeatureIncidence {missed : List (VertexId × VertexId)} {m n m' n' : Mesh α} :
      Retried missed m n → m.updateFeatureIncidence = .ok m' → n.updateFeatureIncidence = .ok n' →
      Retried missed m' n'
  | updateEdges {missed : List (VertexId × VertexId)} {m n : Mesh α} :
      Retried missed m n → Retried missed (meshAfter m.updateEdges) (meshAfter n.updateEdges)
  | updateNormals {missed : List (VertexId × VertexId)} {m n : Mesh α} :
      Retried missed m n → Retried missed (meshAfter m.updateNormals) (meshAfter n.updateNormals)
  | deriveTopology {missed : List (VertexId × VertexId)} {m n : Mesh α} :
      Retried missed m n → Retried missed (meshAfter m.deriveTopology) (meshAfter n.deriveTopology)
  | setSingularity {missed : List (VertexId × VertexId)} {m n m' n' : Mesh α} {v : VertexId}
      {kind : SingularityKind} : Retried missed m n → m.setSingularity v kind = .ok m' →
      n.setSingularity v kind = .ok n' → Retried missed m' n'

section
variable {missed : List (VertexId × VertexId)}

/-- both runs are runs of edits -/
theorem Retried.edited (h : Retried missed m n) : Edited m ∧ Edited n := by
  induction h with
  | start h => exact ⟨h, h⟩
  | stopped _ hstop ih =>
    have hn := ih.2.updateEdges
    rw [hstop] at hn
    exact ⟨ih.1, hn⟩
  | addVertex position entity _ ih =>
    exact ⟨ih.1.addVertex position entity, ih.2.addVertex position entity⟩
  | setCorner _ hm hn ih => exact ⟨ih.1.setCorner hm, ih.2.setCorner hn⟩
  | insertEdge a b _ ih => exact ⟨ih.1.insertEdge a b, ih.2.insertEdge a b⟩
  | insertFeatureEdge a b curve _ ih =>
    exact ⟨ih.1.insertFeatureEdge a b curve, ih.2.insertFeatureEdge a b curve⟩
  | clearTopology _ ih => exact ⟨ih.1.clearTopology, ih.2.clearTopology⟩
  | updateFeatureIncidence _ hm hn ih =>
    exact ⟨ih.1.updateFeatureIncidence hm, ih.2.updateFeatureIncidence hn⟩
  | updateEdges _ ih => exact ⟨ih.1.updateEdges, ih.2.updateEdges⟩
  | updateNormals _ ih => exact ⟨ih.1.updateNormals, ih.2.updateNormals⟩
  | deriveTopology _ ih => exact ⟨ih.1.deriveTopology, ih.2.deriveTopology⟩
  | setSingularity _ hm hn ih => exact ⟨ih.1.setSingularity hm, ih.2.setSingularity hn⟩

/-- updates that stopped leave no vertex, no corner and no singularity behind -/
theorem Retried.clearTopology_eq (h : Retried missed m n) : n.clearTopology = m.clearTopology := by
  induction h with
  | start _ => rfl
  | stopped h hstop ih =>
    have hn := h.edited.2.kept.given_updateEdges
    rw [hstop] at hn
    exact clearTopology_eq_of_given ih rfl hn
  | addVertex position entity _ ih => exact clearTopology_addVertex ih position entity
  | setCorner _ hm hn ih => exact clearTopology_setCorner ih hm hn
  | insertEdge a b _ ih =>
    exact clearTopology_eq_of_given ih (alike_insertEdge _ a b).given (alike_insertEdge _ a b).given
  | insertFeatureEdge a b curve _ ih =>
    rw [clearTopology_insertFeatureEdge, clearTopology_insertFeatureEdge]
    exact ih
  | clearTopology _ ih => exact congrArg Mesh.clearTopology ih
  | updateFeatureIncidence _ hm hn ih =>
    exact clearTopology_eq_of_given ih (given_updateFeatureIncidence hm)
      (given_updateFeatureIncidence hn)
  | updateEdges h ih =>
    exact clearTopology_eq_of_given ih h.edited.1.kept.given_updateEdges
      h.edited.2.kept.given_updateEdges
  | updateNormals _ ih =>
    exact clearTopology_eq_of_given ih (given_updateNormals _) (given_updateNormals _)
  | deriveTopology _ ih =>
    exact clearTopology_eq_of_given ih (given_deriveTopology _) (given_deriveTopology _)
  | setSingularity _ hm hn ih => exact clearTopology_setSingularity ih hm hn

/-- and no feature and no line, when no insertion met an edge that they left -/
theorem Retried.alike (h : Retried missed m n) : missed = [] → Alike m n := by
  induction h with
  | start _ => exact fun _ => .refl _
  | stopped h hstop ih =>
    intro hnone
    have hn := h.edited.2.kept.alike_updateEdges
    rw [hstop] at hn
    exact (ih hnone).trans hn
  | addVertex position entity _ ih => exact fun hnone => (ih hnone).addVertex position entity
  | setCorner _ hm hn ih => exact fun hnone => (ih hnone).setCorner hm hn
  | insertEdge a b _ ih =>
    exact fun hnone =>
      ((alike_insertEdge _ a b).symm.trans (ih hnone)).trans (alike_insertEdge _ a b)
  | insertFeatureEdge a b curve _ ih =>
    intro hnone
    obtain ⟨hpair, hnone⟩ := List.append_eq_nil_iff.mp hnone
    exact (alike_insertFeatureEdge_iff (ih hnone)).mpr hpair
  | clearTopology h _ => exact fun _ => h.clearTopology_eq ▸ .refl _
  | updateFeatureIncidence _ hm hn ih =>
    exact fun hnone => ((alike_updateFeatureIncidence hm).symm.trans (ih hnone)).trans
      (alike_updateFeatureIncidence hn)
  | updateEdges h ih =>
    exact fun hnone => (h.edited.1.kept.alike_updateEdges.symm.trans (ih hnone)).trans
      h.edited.2.kept.alike_updateEdges
  | updateNormals _ ih =>
    exact fun hnone =>
      ((alike_updateNormals _).symm.trans (ih hnone)).trans (alike_updateNormals _)
  | deriveTopology _ ih => exact fun hnone => (ih hnone).deriveTopology ▸ .refl _
  | setSingularity _ hm hn ih => exact fun hnone => (ih hnone).setSingularity hm hn

end

end
end Mesh
end DiskCut
