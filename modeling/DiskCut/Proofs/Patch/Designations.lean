import DiskCut.Proofs.Patch.Errors

/-!
# Designations do not depend on the order of groups

Groups are read in order, and a designation that disagrees with an earlier one stops the builder.
Still it is the set of all designations that decides whether a builder succeeds and what it gives.

* `Model.designations`     the designations of all groups, one after the other
* `designate_eq`           the builder makes them in this order
* `Placed m rename done s` `s` is the mesh `m` with the designations `done`
* `designate_ok_iff`, `singular_of_designate`   when all can be made, and what is singular then
* `Regrouped groups groups'`   groups in another order or repeated, with entities in another order or
                           repeated
* `GroupsAsSet`            what the groups do to something that is built from a model
* `groupsAsSet`            so it is with whole models and with patches
-/

namespace DiskCut
open Std

/-- the singularity `kind` for a point, named by an entity of group number `group` -/
structure Designation where
  group : Nat
  kind : SingularityKind
  point : Nat

/-- the designations of one group, one for each entity with a vertex -/
def Group.designations (numbered : Group × Nat) : List Designation :=
  match SingularityKind.ofGroupName? numbered.1.name with
  | none => []
  | some kind => numbered.1.points.filterMap fun entity =>
      entity.vertices.head?.map (⟨numbered.2, kind, ·⟩)

/-- the designations of all groups, in order -/
def Model.designations {α : Type} (model : Model α) : List Designation :=
  model.groups.zipIdx.flatMap Group.designations

theorem mem_designations_iff {α : Type} {model : Model α} {v : Nat} {kind : SingularityKind} :
    (∃ d ∈ model.designations, d.point = v ∧ d.kind = kind) ↔ Designates model v kind := by
  unfold Model.designations Designates
  simp only [List.mem_flatMap]
  refine ⟨?_, ?_⟩
  · intro ⟨d, ⟨⟨group, g⟩, hgroup, hd⟩, hpoint, hkind⟩
    unfold Group.designations at hd
    cases hname : SingularityKind.ofGroupName? group.name with
    | none => simp [hname] at hd
    | some kind' =>
      simp only [hname, List.mem_filterMap, Option.map_eq_some_iff] at hd
      obtain ⟨entity, hentity, w, hfirst, rfl⟩ := hd
      exact ⟨group, List.fst_mem_of_mem_zipIdx hgroup, hname.trans (congrArg some hkind), entity,
        hentity, hpoint ▸ hfirst⟩
  · intro ⟨group, hgroup, hname, entity, hentity, hfirst⟩
    obtain ⟨g, hg⟩ := List.mem_iff_getElem?.mp hgroup
    refine ⟨⟨g, kind, v⟩, ⟨(group, g), List.mem_zipIdx_iff_getElem?.mpr hg, ?_⟩, rfl, rfl⟩
    unfold Group.designations
    simp only [hname, List.mem_filterMap, Option.map_eq_some_iff]
    exact ⟨entity, hentity, v, hfirst, rfl⟩

namespace Mesh
variable {α : Type} {m s next : Mesh α} {v : VertexId} {kind : SingularityKind}
  {model : Model α} {rename : Nat → Option VertexId} {count : Nat}
  {done : List Designation} {d : Designation}

/-- one designation -/
def designateAt (m : Mesh α) (count : Nat) (rename : Nat → Option VertexId) (d : Designation) :
    Except MeshError (Mesh α) :=
  if count ≤ d.point then .error (.invalidVertexIndex d.group d.point)
  else match rename d.point with
    | none => .ok m
    | some u => m.setSingularity u d.kind

/-- the designations of a model are made one after the other -/
theorem designate_eq (m : Mesh α) (model : Model α) (rename : Nat → Option VertexId) :
    m.designate model rename
      = model.designations.foldlM (fun s d => s.designateAt model.points.size rename d) m := by
  unfold designate Model.designations
  rw [foldlM_flatMap]
  refine congrArg (fun f => List.foldlM f m _) (funext fun s => funext fun x => ?_)
  unfold designateGroup Group.designations
  cases SingularityKind.ofGroupName? x.1.name with
  | none => rfl
  | some kind =>
    simp only [List.foldlM_filterMap]
    refine congrArg (fun f => List.foldlM f s _) (funext fun s => funext fun entity => ?_)
    unfold designateEntity
    cases entity.vertices.head? with
    | none => rfl
    | some v => rfl

/-- the designations `done` on the mesh `m`, at the vertices that stand for their points -/
structure Placed (m : Mesh α) (rename : Nat → Option VertexId) (done : List Designation)
    (s : Mesh α) : Prop where
  frame : s = { m with singularities := s.singularities }
  singular : ∀ u kind, s.singularities[u]? = some kind ↔
    ∃ d ∈ done, rename d.point = some u ∧ d.kind = kind

theorem placed_nil (fresh : m.singularities = ∅) : Placed m rename [] m where
  frame := rfl
  singular u kind := by simp [fresh]

/-- designations of one vertex agree -/
def Agree (rename : Nat → Option VertexId) (d d' : Designation) : Prop :=
  ∀ u, rename d.point = some u → rename d'.point = some u → d.kind = d'.kind

theorem Placed.agree (h : Placed m rename done s) {d d' : Designation} (hd : d ∈ done)
    (hd' : d' ∈ done) : Agree rename d d' := by
  intro u hu hu'
  have h₁ := (h.singular u d.kind).mpr ⟨d, hd, hu, rfl⟩
  have h₂ := (h.singular u d'.kind).mpr ⟨d', hd', hu', rfl⟩
  exact Option.some.inj (h₁.symm.trans h₂)

theorem Placed.concat_of_none (h : Placed m rename done s) (hname : rename d.point = none) :
    Placed m rename (done ++ [d]) s where
  frame := h.frame
  singular u kind := by
    rw [h.singular]
    simp [or_and_right, exists_or, hname]

theorem Placed.concat (h : Placed m rename done s) {u : VertexId} (hname : rename d.point = some u)
    (hok : s.setSingularity u d.kind = .ok next) : Placed m rename (done ++ [d]) next := by
  obtain ⟨_, hfree, rfl⟩ := setSingularity_eq_ok_iff.mp hok
  refine ⟨?_, fun w kind => ?_⟩
  · rw [h.frame]
  · rw [ExtTreeMap.getElem?_insert]
    split
    · rename_i hw
      obtain rfl := Nat.compare_eq_eq.mp hw
      refine ⟨fun hkind => ⟨d, by simp, hname, Option.some.inj hkind⟩, ?_⟩
      intro ⟨d', hd', hname', hkind⟩
      rcases List.mem_append.mp hd' with hd' | hd'
      · have hpresent := (h.singular u kind).mpr ⟨d', hd', hname', hkind⟩
        rw [hfree kind hpresent]
      · rw [← hkind, List.mem_singleton.mp hd']
    · rename_i hw
      have hne : u ≠ w := fun heq => hw (Nat.compare_eq_eq.mpr heq)
      rw [h.singular]
      simp [or_and_right, exists_or, hname, hne]

theorem Placed.designateAt (h : Placed m rename done s)
    (hok : s.designateAt count rename d = .ok next) :
    d.point < count ∧ Placed m rename (done ++ [d]) next := by
  unfold Mesh.designateAt at hok
  split at hok
  · cases hok
  · rename_i hlt
    refine ⟨Nat.not_le.mp hlt, ?_⟩
    split at hok
    · rename_i hname
      exact Except.ok.inj hok ▸ h.concat_of_none hname
    · rename_i u hname
      exact h.concat hname hok

theorem Placed.designateAt_ok (h : Placed m rename done s)
    (rename_lt : ∀ v < count, ∀ u, rename v = some u → u < m.vertices.size) (hlt : d.point < count)
    (hagree : ∀ d' ∈ done, Agree rename d' d) :
    ∃ next, s.designateAt count rename d = .ok next := by
  unfold Mesh.designateAt
  rw [if_neg (Nat.not_le.mpr hlt)]
  cases hname : rename d.point with
  | none => exact ⟨s, rfl⟩
  | some u =>
    refine ⟨_, setSingularity_eq_ok_iff.mpr ⟨?_, fun present hpresent => ?_, rfl⟩⟩
    · rw [h.frame]
      exact rename_lt _ hlt _ hname
    · obtain ⟨d', hd', hname', rfl⟩ := (h.singular u present).mp hpresent
      exact hagree d' hd' u hname' hname

/-! ## all designations -/

theorem placed_of_designate (fresh : m.singularities = ∅)
    (hok : m.designate model rename = .ok next) :
    (∀ d ∈ model.designations, d.point < model.points.size) ∧
      Placed m rename model.designations next := by
  rw [designate_eq] at hok
  refine foldlM_record (P := fun done s => (∀ d ∈ done, d.point < model.points.size) ∧
    Placed m rename done s) (fun pre d post s next _ hs hstep => ?_) ⟨by simp, placed_nil fresh⟩ hok
  obtain ⟨hlt, hnext⟩ := hs.2.designateAt hstep
  refine ⟨?_, hnext⟩
  rw [List.forall_mem_append, List.forall_mem_singleton]
  exact ⟨hs.1, hlt⟩

theorem designate_ok (fresh : m.singularities = ∅)
    (rename_lt : ∀ v < model.points.size, ∀ u, rename v = some u → u < m.vertices.size)
    (hlt : ∀ d ∈ model.designations, d.point < model.points.size)
    (hagree : ∀ d ∈ model.designations, ∀ d' ∈ model.designations, Agree rename d d') :
    ∃ next, m.designate model rename = .ok next := by
  have hstep : ∀ pre d post s, model.designations = pre ++ d :: post → Placed m rename pre s →
      ∃ next, s.designateAt model.points.size rename d = .ok next ∧
        Placed m rename (pre ++ [d]) next := by
    intro pre d post s hsplit hs
    have hd : d ∈ model.designations := by simp [hsplit]
    obtain ⟨next, hok⟩ := hs.designateAt_ok rename_lt (hlt d hd) fun d' hd' =>
      hagree d' (by simp [hsplit, hd']) d hd
    exact ⟨next, hok, (hs.designateAt hok).2⟩
  obtain ⟨next, hok, _⟩ := foldlM_total hstep (placed_nil fresh)
  rw [designate_eq]
  exact ⟨next, hok⟩

/-- what is designated at the vertices of a mesh without singularities -/
theorem singular_of_designate (fresh : m.singularities = ∅)
    (hok : m.designate model rename = .ok next) :
    next = { m with singularities := next.singularities } ∧
      ∀ u kind, next.singularities[u]? = some kind ↔
        ∃ v, rename v = some u ∧ Designates model v kind := by
  obtain ⟨_, hplaced⟩ := placed_of_designate fresh hok
  refine ⟨hplaced.frame, fun u kind => ?_⟩
  rw [hplaced.singular]
  simp only [← mem_designations_iff]
  grind

/-- The designations are made just when all points exist and none that stands at a vertex is
designated in two ways. -/
theorem designate_ok_iff (fresh : m.singularities = ∅)
    (rename_lt : ∀ v < model.points.size, ∀ u, rename v = some u → u < m.vertices.size)
    (rename_inj : ∀ v w u, rename v = some u → rename w = some u → v = w) :
    (∃ next, m.designate model rename = .ok next) ↔
      (∀ v kind, Designates model v kind → v < model.points.size) ∧
      ∀ v kind kind', (∃ u, rename v = some u) → Designates model v kind →
        Designates model v kind' → kind = kind' := by
  simp only [← mem_designations_iff]
  refine ⟨?_, ?_⟩
  · intro ⟨next, hok⟩
    obtain ⟨hlt, hplaced⟩ := placed_of_designate fresh hok
    refine ⟨?_, ?_⟩
    · rintro v kind ⟨d, hd, rfl, rfl⟩
      exact hlt d hd
    · rintro v kind kind' ⟨u, hu⟩ ⟨d, hd, rfl, rfl⟩ ⟨d', hd', hpoint, rfl⟩
      exact hplaced.agree hd hd' u hu (hpoint ▸ hu)
  · intro ⟨hlt, hagree⟩
    refine designate_ok fresh rename_lt (fun d hd => hlt _ _ ⟨d, hd, rfl, rfl⟩) ?_
    intro d hd d' hd' u hu hu'
    exact hagree d.point _ _ ⟨u, hu⟩ ⟨d, hd, rfl, rfl⟩ ⟨d', hd', rename_inj _ _ _ hu' hu, rfl⟩

/-- designations of the same points in the same way -/
theorem designate_congr (model model' : Model α) (fresh : m.singularities = ∅)
    (rename_lt : ∀ v < model.points.size, ∀ u, rename v = some u → u < m.vertices.size)
    (rename_inj : ∀ v w u, rename v = some u → rename w = some u → v = w)
    (points : model'.points.size = model.points.size)
    (same : ∀ v kind, Designates model' v kind ↔ Designates model v kind)
    (hok : m.designate model rename = .ok next) : m.designate model' rename = .ok next := by
  have hcan : ∃ next, m.designate model rename = .ok next := ⟨next, hok⟩
  rw [designate_ok_iff fresh rename_lt rename_inj] at hcan
  simp only [← same, ← points] at hcan
  obtain ⟨next', hok'⟩ := (designate_ok_iff fresh (points ▸ rename_lt) rename_inj).mpr hcan
  obtain ⟨hframe, hsingular⟩ := singular_of_designate fresh hok
  obtain ⟨hframe', hsingular'⟩ := singular_of_designate fresh hok'
  have hequal : next'.singularities = next.singularities := by
    refine ExtTreeMap.ext_getElem? fun u => Option.ext fun kind => ?_
    rw [hsingular, hsingular']
    simp only [same]
  rw [hok', hframe', hequal, ← hframe]

end Mesh

/-! ## lists of groups -/

/-- groups of one name with the same entities -/
def Group.Alike (group group' : Group) : Prop :=
  group'.name = group.name ∧ ∀ entity, entity ∈ group'.points ↔ entity ∈ group.points

/-- lists of groups that differ by order and repetition of groups, and of entities in groups -/
def Regrouped (groups groups' : List Group) : Prop :=
  (∀ group ∈ groups, ∃ group' ∈ groups', group.Alike group') ∧
    ∀ group' ∈ groups', ∃ group ∈ groups, group'.Alike group

theorem designates_of_regrouped {α : Type} {model model' : Model α}
    (h : ∀ group ∈ model.groups, ∃ group' ∈ model'.groups, group.Alike group') {v : Nat}
    {kind : SingularityKind} (hv : Designates model v kind) : Designates model' v kind := by
  obtain ⟨group, hgroup, hname, entity, hentity, hfirst⟩ := hv
  obtain ⟨group', hgroup', hsame, hpoints⟩ := h group hgroup
  exact ⟨group', hgroup', hsame ▸ hname, entity, (hpoints entity).mpr hentity, hfirst⟩

/-- a model with other groups -/
def Model.withGroups {α : Type} (model : Model α) (groups : List Group) : Model α :=
  { model with groups := groups }

theorem designates_iff_of_regrouped {α : Type} {model : Model α} {groups : List Group}
    (h : Regrouped model.groups groups) (v : Nat) (kind : SingularityKind) :
    Designates (model.withGroups groups) v kind ↔ Designates model v kind :=
  ⟨designates_of_regrouped h.2, designates_of_regrouped h.1⟩

/-- What the groups do to something that is built from a model.  It has the mesh `mesh b`, whose
vertex `i` stands for the point `v` when `place b i v`; the points `on` are those of the mesh. -/
structure GroupsAsSet {α β : Type} (model : Model α) (build : Model α → Except Fault β)
    (mesh : β → Mesh α) (place : β → VertexId → Nat → Prop) (on : Nat → Prop) : Prop where
  /-- it is built when designated points exist, with one index each where they matter -/
  built_iff : (∃ b, build model = .ok b) ↔
    (∀ v kind, Designates model v kind → v < model.points.size) ∧
      ∀ v kind kind', on v → Designates model v kind → Designates model v kind' → kind = kind'
  singular_iff : ∀ b, build model = .ok b → ∀ i kind, (mesh b).singularities[i]? = some kind ↔
    ∃ v, place b i v ∧ Designates model v kind
  /-- order and repetition do not matter -/
  regrouped : ∀ groups, Regrouped model.groups groups → ∀ b,
    build (model.withGroups groups) = .ok b ↔ build model = .ok b

namespace Mesh
variable {α : Type} {m : Mesh α} {model : Model α}

/-- what is built by designations on a mesh that does not depend on the groups -/
theorem groupsAsSet_of_designate {β : Type} {build : Model α → Except Fault β} {mesh : β → Mesh α}
    {place : β → VertexId → Nat → Prop} {on : Nat → Prop} (rename : Nat → Option VertexId)
    (fresh : m.singularities = ∅)
    (rename_lt : ∀ v < model.points.size, ∀ u, rename v = some u → u < m.vertices.size)
    (rename_inj : ∀ v w u, rename v = some u → rename w = some u → v = w)
    (hon : ∀ v < model.points.size, on v ↔ ∃ u, rename v = some u)
    (wrap : Mesh α → β) (hmesh : ∀ m, mesh (wrap m) = m)
    (hplace : ∀ m i v, place (wrap m) i v ↔ rename v = some i)
    (hbuild : ∀ groups b, build (model.withGroups groups) = .ok b ↔
      ∃ next, m.designate (model.withGroups groups) rename = .ok next ∧ b = wrap next) :
    GroupsAsSet model build mesh place on := by
  have hself : ∀ b, build model = .ok b ↔
      ∃ next, m.designate model rename = .ok next ∧ b = wrap next := hbuild model.groups
  refine ⟨?_, fun b hb i kind => ?_, fun groups hgroups b => ?_⟩
  · have hcan : (∃ b, build model = .ok b) ↔ ∃ next, m.designate model rename = .ok next := by
      simp only [hself]
      grind
    rw [hcan, designate_ok_iff fresh rename_lt rename_inj]
    refine and_congr_right fun hlt => ?_
    grind
  · obtain ⟨next, hok, rfl⟩ := (hself b).mp hb
    rw [hmesh, (singular_of_designate fresh hok).2]
    simp only [hplace]
  · have same := designates_iff_of_regrouped hgroups
    rw [hbuild, hself]
    refine exists_congr fun next => and_congr_left' ⟨fun hok => ?_, fun hok => ?_⟩
    · exact designate_congr (model.withGroups groups) model fresh rename_lt rename_inj rfl
        (fun v kind => (same v kind).symm) hok
    · exact designate_congr model (model.withGroups groups) fresh rename_lt rename_inj rfl same hok

end Mesh

/-! ## the builders -/

section
variable {α : Type} [Scalar α] {model : Model α} {surface : Surface} {tag : Int}

/-- a model with a triangle whose topology can be derived -/
theorem Mesh.groupsAsSet_ofModel {bare : Mesh α}
    (hbare : (Mesh.ofModel (model.withGroups [])).result = .ok bare)
    (nonempty : model.surfaces.flatMap (·.triangles) ≠ []) :
    GroupsAsSet model (fun model => (Mesh.ofModel model).result) id (fun _ i v => i = v)
      (· < model.points.size) := by
  have hmodel : ∀ groups, (Mesh.ofModel (model.withGroups groups)).result
      = (Mesh.assemble model.points (model.surfaces.flatMap (·.triangles))
          (model.curves.flatMap Mesh.linesOfCurve)).result >>= fun m =>
        (m.designate (model.withGroups groups) some).mapError .mesh :=
    fun _ => Mesh.ofModel_eq nonempty
  rw [hmodel] at hbare
  obtain ⟨m, hm, _⟩ := bind_eq_ok_iff.mp hbare
  have hassembled := Mesh.assembled_of_ok nonempty hm
  refine Mesh.groupsAsSet_of_designate some hassembled.undesignated ?_ ?_ ?_ id (fun _ => rfl) ?_
    fun groups b => ?_
  · rintro v hv u ⟨⟩
    rw [hassembled.size_vertices]
    exact hv
  · rintro v w u ⟨⟩ ⟨⟩
    rfl
  · intro v hv
    simp [hv]
  · intro _ i v
    simp [eq_comm]
  · rw [hmodel, hm, ok_bind, mapError_eq_ok_iff]
    simp

namespace Patch

theorem ofSurface_eq_ok_iff {p : Patch α} : (ofSurface model surface).result = .ok p ↔
    (∀ vs ∈ surface.triangles, ∀ v ∈ vs.toList, v < model.points.size) ∧
      ∃ lines m last, (model.curvesOn surface).mapM
          (localLines model.points.size (localNames (model.pointsOn surface))) = .ok lines ∧
        (Mesh.assemble (model.restrict surface).points
          (surface.triangles.map (localTriangle (model.pointsOn surface))) lines.flatten).result
            = .ok m ∧
        m.designate model (fun v => (localNames (model.pointsOn surface))[v]?) = .ok last ∧
        p = ⟨last, (model.pointsOn surface).toArray⟩ := by
  unfold ofSurface
  simp only [Logged.result_bind, Logged.result_require, Logged.result_lift, Logged.result_mapFault,
    Logged.result_pure, bind_eq_ok_iff, mapError_eq_ok_iff]
  refine ⟨?_, ?_⟩
  · intro ⟨_, hcheck, lines, hlines, points, hpoints, m, hm, last, hlast, hp⟩
    have corner_lt := (forM_zipIdx_eq_ok_iff (checkCorners_eq_ok_iff _) surface.triangles).mp hcheck
    rw [usedPoints_eq corner_lt] at hlines hpoints hm hlast hp
    rw [mapM_fetch_points] at hpoints
    obtain rfl := Except.ok.inj hpoints
    exact ⟨corner_lt, lines, m, last, hlines, hm, hlast, (Except.ok.inj hp).symm⟩
  · intro ⟨corner_lt, lines, m, last, hlines, hm, hlast, hp⟩
    have hcheck :=
      (forM_zipIdx_eq_ok_iff (checkCorners_eq_ok_iff _) surface.triangles).mpr corner_lt
    rw [usedPoints_eq corner_lt]
    exact ⟨(), hcheck, lines, hlines, _, mapM_fetch_points model surface, m, hm, last, hlast,
      congrArg _ hp.symm⟩

/-- a surface with a triangle whose patch has a topology -/
theorem groupsAsSet_ofModel {bare : Patch α} (hs : model.surface? tag = some surface)
    (nonempty : surface.triangles ≠ [])
    (hbare : (ofModel (model.withGroups []) tag).result = .ok bare) :
    GroupsAsSet model (fun model => (ofModel model tag).result) Patch.mesh
      (fun p i v => p.modelVertices[i]? = some v) (· ∈ model.pointsOn surface) := by
  have hsurface : ∀ groups, ofModel (model.withGroups groups) tag
      = ofSurface (model.withGroups groups) surface := fun _ => ofModel_of_surface hs nonempty
  rw [hsurface, ofSurface_eq_ok_iff] at hbare
  obtain ⟨corner_lt, lines, m, _, hlines, hm, _, _⟩ := hbare
  have hassembled := Mesh.assembled_of_ok (mt List.map_eq_nil_iff.mp nonempty) hm
  have hname : ∀ v i, (localNames (model.pointsOn surface))[v]? = some i ↔
      Stands (model.pointsOn surface) i v := fun v i => localNames_eq_some_iff pointsOn_sorted
  refine Mesh.groupsAsSet_of_designate (fun v => (localNames (model.pointsOn surface))[v]?)
    hassembled.undesignated ?_ ?_ ?_ (⟨·, (model.pointsOn surface).toArray⟩) (fun _ => rfl) ?_
    fun groups p => ?_
  · intro v _ i hi
    rw [hassembled.size_vertices]
    have hlt := ((hname v i).mp hi).lt_length
    rw [← size_points_restrict] at hlt
    exact hlt
  · intro v w i hv hw
    exact ((hname v i).mp hv).point_eq ((hname w i).mp hw)
  · intro v _
    simp only [hname]
    exact ⟨exists_stands, fun ⟨_, hi⟩ => hi.mem⟩
  · intro _ i v
    rw [hname, List.getElem?_toArray]
    rfl
  · rw [hsurface, ofSurface_eq_ok_iff]
    refine ⟨?_, ?_⟩
    · intro ⟨_, lines', m', last, hlines', hm', hlast, hp⟩
      obtain rfl := Except.ok.inj (hlines.symm.trans hlines')
      obtain rfl := Except.ok.inj (hm.symm.trans hm')
      exact ⟨last, hlast, hp⟩
    · intro ⟨last, hlast, hp⟩
      exact ⟨corner_lt, lines, m, last, hlines, hm, hlast, hp⟩

end Patch

/-- Designations depend on the groups as a set: whether a model or a patch whose topology can be
derived is built, and which singularities it has then. -/
theorem groupsAsSet (model : Model α) :
    (∀ bare, (Mesh.ofModel (model.withGroups [])).result = .ok bare →
      model.surfaces.flatMap (·.triangles) ≠ [] →
      GroupsAsSet model (fun model => (Mesh.ofModel model).result) id (fun _ i v => i = v)
        (· < model.points.size)) ∧
    ∀ tag surface bare, model.surface? tag = some surface → surface.triangles ≠ [] →
      (Patch.ofModel (model.withGroups []) tag).result = .ok bare →
      GroupsAsSet model (fun model => (Patch.ofModel model tag).result) Patch.mesh
        (fun p i v => p.modelVertices[i]? = some v) (· ∈ model.pointsOn surface) :=
  ⟨fun _ hbare nonempty => Mesh.groupsAsSet_ofModel hbare nonempty,
    fun _ _ _ hs nonempty hbare => Patch.groupsAsSet_ofModel hs nonempty hbare⟩

theorem groupsAsSet_square : ∃ bare bare',
    (Mesh.ofModel (Patch.squareModel.withGroups [])).result = .ok bare ∧
    (Patch.ofModel (Patch.squareModel.withGroups []) 7).result = .ok bare' ∧
    GroupsAsSet Patch.squareModel (fun model => (Mesh.ofModel model).result) id (fun _ i v => i = v)
      (· < 6) ∧
    GroupsAsSet Patch.squareModel (fun model => (Patch.ofModel model 7).result) Patch.mesh
      (fun p i v => p.modelVertices[i]? = some v) (· ∈ [1, 3, 4, 5]) := by
  obtain ⟨bare, hbare, _⟩ := exists_of_yields (p := fun _ => true)
    (x := (Mesh.ofModel (Patch.squareModel.withGroups [])).result) (by decide +kernel)
  obtain ⟨bare', hbare', _⟩ := exists_of_yields (p := fun _ => true)
    (x := (Patch.ofModel (Patch.squareModel.withGroups []) 7).result) (by decide +kernel)
  have hpoints : Patch.squareModel.pointsOn Patch.square = [1, 3, 4, 5] := by decide
  refine ⟨bare, bare', hbare, hbare', ?_, ?_⟩
  · exact (groupsAsSet Patch.squareModel).1 bare hbare (by decide)
  · rw [← hpoints]
    exact (groupsAsSet Patch.squareModel).2 7 Patch.square bare' (by decide) (by decide) hbare'

end

end DiskCut
