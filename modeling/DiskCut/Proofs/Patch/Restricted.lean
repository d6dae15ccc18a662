import DiskCut.Proofs.Mesh.Accepted
import DiskCut.Proofs.Patch.Names

/-!
# A patch is the mesh of a restricted model

* `Model.restrict`      one surface of a model with its curves and its points alone, numbered again
* `Restrictable`        surfaces for which this makes sense: curves lie on them, and indices exist
* `ofSurface_eq`        the mesh of such a surface is made as that of the restricted model
* `ofModel_restrict`    so both exist together and are equal
-/

namespace DiskCut
open Std

/-! ## restricting a model -/

/-- a point entity in the numbering of the points `used`; it is dropped when its first vertex is not
one of them -/
def PointEntity.restrict? (used : List Nat) (entity : PointEntity) : Option PointEntity :=
  match entity.vertices with
  | [] => some entity
  | v :: rest =>
    if v ∈ used then
      some { entity with
        vertices := used.idxOf v :: (rest.filter (· ∈ used)).map fun w => used.idxOf w }
    else none

/-- the same for a group -/
def Group.restrict (used : List Nat) (group : Group) : Group :=
  { group with points := group.points.filterMap (PointEntity.restrict? used) }

/-- a curve in the numbering of the points `used` -/
def Curve.restrict (used : List Nat) (curve : Curve) : Curve :=
  { curve with segments := curve.segments.map fun s => (used.idxOf s.1, used.idxOf s.2) }

namespace Model
variable {α : Type}

/-- the points that the triangles of a surface use, in increasing order -/
def pointsOn (model : Model α) (surface : Surface) : List Nat :=
  (List.range model.points.size).filter fun v => surface.triangles.any fun vs => v ∈ vs.toList

/-- the curves that a surface lists, each the first one with its tag; unknown tags are skipped -/
def curvesOn (model : Model α) (surface : Surface) : List Curve :=
  surface.curves.filterMap model.curve?

/-- one surface of a model, with its points, its curves and the groups, all numbered again -/
def restrict (model : Model α) (surface : Surface) : Model α where
  points := ((model.pointsOn surface).filterMap (model.points[·]?)).toArray
  surfaces := [{ surface with
    triangles := surface.triangles.map (·.map fun v => (model.pointsOn surface).idxOf v) }]
  curves := (model.curvesOn surface).map (·.restrict (model.pointsOn surface))
  groups := model.groups.map (·.restrict (model.pointsOn surface))

/-- a surface with triangles on points of the model, with curves on them; the points that groups
designate exist -/
structure Restrictable (model : Model α) (surface : Surface) : Prop where
  nonempty : surface.triangles ≠ []
  corner_lt : ∀ vs ∈ surface.triangles, ∀ v ∈ vs.toList, v < model.points.size
  ends_mem : ∀ curve ∈ model.curvesOn surface, ∀ s ∈ curve.segments,
    s.1 ∈ model.pointsOn surface ∧ s.2 ∈ model.pointsOn surface
  first_lt : ∀ group ∈ model.groups, SingularityKind.ofGroupName? group.name ≠ none →
    ∀ entity ∈ group.points, ∀ v, entity.vertices.head? = some v → v < model.points.size

end Model

namespace Patch
variable {α : Type} {model : Model α} {surface : Surface}

/-! ## the points of the surface -/

theorem mem_pointsOn {v : Nat} : v ∈ model.pointsOn surface ↔
    v < model.points.size ∧ ∃ vs ∈ surface.triangles, v ∈ vs.toList := by
  simp [Model.pointsOn]

theorem pointsOn_sorted : (model.pointsOn surface).Pairwise (· < ·) :=
  List.pairwise_lt_range.filter _

theorem usedPoints_eq (corner_lt : ∀ vs ∈ surface.triangles, ∀ v ∈ vs.toList, v < model.points.size) :
    usedPoints surface.triangles = model.pointsOn surface := by
  refine (usedPoints_sorted _).eq_of_mem_iff pointsOn_sorted fun v => ?_
  rw [mem_usedPoints, mem_pointsOn]
  refine ⟨?_, And.right⟩
  intro ⟨vs, hvs, hv⟩
  exact ⟨corner_lt vs hvs v hv, vs, hvs, hv⟩

/-- the check of the corners of a triangle of the model -/
def checkCorners (count : Nat) (x : Triple Nat × Nat) : Except MeshError Unit :=
  Mesh.checkIndices count x.2 x.1.toList

theorem checkCorners_eq_ok_iff (count : Nat) (vs : Triple Nat) (t : Nat) :
    checkCorners count (vs, t) = .ok () ↔ ∀ v ∈ vs.toList, v < count :=
  Mesh.checkIndices_eq_ok_iff count t vs.toList

section
variable {used : List Nat} (sorted : used.Pairwise (· < ·)) {v : Nat}
include sorted

theorem localNames_of_mem (h : v ∈ used) : (localNames used)[v]? = some (used.idxOf v) :=
  (localNames_eq_some_iff sorted).mpr (List.getElem?_idxOf h)

theorem localTriangle_eq {vs : Triple Nat} (h : ∀ v ∈ vs.toList, v ∈ used) :
    localTriangle used vs = vs.map fun v => used.idxOf v := by
  have hplace : ∀ v ∈ used, (localNames used).getD v v = used.idxOf v := by
    intro v hv
    rw [ExtTreeMap.getD_eq_getD_getElem?, localNames_of_mem sorted hv]
    rfl
  simp only [Triple.toList, List.forall_mem_cons] at h
  obtain ⟨ha, hb, hc, _⟩ := h
  rw [localTriangle, Triple.map, Triple.map, hplace _ ha, hplace _ hb, hplace _ hc]

/-! ## the curves of the surface -/

theorem localLine_of_mem {count : Nat} (below : ∀ v ∈ used, v < count) {tag : Int}
    {x : (Nat × Nat) × Nat} (h : x.1.1 ∈ used ∧ x.1.2 ∈ used) :
    localLine count (localNames used) tag x
      = .ok ⟨(used.idxOf x.1.1, used.idxOf x.1.2), some tag⟩ := by
  obtain ⟨⟨a, b⟩, s⟩ := x
  have hcheck : Mesh.checkIndices count s [a, b] = .ok () := by
    rw [Mesh.checkIndices_eq_ok_iff, List.forall_mem_cons, List.forall_mem_singleton]
    exact ⟨below a h.1, below b h.2⟩
  simp only [localLine, hcheck, localNames_of_mem sorted h.1, localNames_of_mem sorted h.2, bind,
    Except.bind]
  rfl

theorem localLines_of_mem {count : Nat} (below : ∀ v ∈ used, v < count) {curve : Curve}
    (h : ∀ s ∈ curve.segments, s.1 ∈ used ∧ s.2 ∈ used) :
    localLines count (localNames used) curve = .ok (Mesh.linesOfCurve (curve.restrict used)) := by
  have hline : ∀ x ∈ curve.segments.zipIdx, localLine count (localNames used) curve.tag x
      = .ok ⟨(used.idxOf x.1.1, used.idxOf x.1.2), some curve.tag⟩ := by
    intro x hx
    refine localLine_of_mem sorted below (h x.1 ?_)
    rw [← List.zipIdx_map_fst 0 curve.segments]
    exact List.mem_map_of_mem hx
  rw [localLines, mapM_eq_ok_map hline, Mesh.linesOfCurve, Curve.restrict, List.map_map,
    ← List.zipIdx_map_fst 0 curve.segments, List.map_map]
  simp only [List.zipIdx_map_fst]
  rfl

end

/-! ## the groups -/

section
variable {used : List Nat} (sorted : used.Pairwise (· < ·)) {R : Model α}
  (points : R.points.size = used.length)
include sorted points

/-- an entity of the model makes the designation that it makes after the restriction, and none if it
is dropped -/
theorem designateEntity_restrict {g : Nat} {kind : SingularityKind} (m : Mesh α)
    {entity : PointEntity}
    (first_lt : ∀ v, entity.vertices.head? = some v → v < model.points.size) :
    (entity.restrict? used = none ∧
      Mesh.designateEntity model (fun v => (localNames used)[v]?) g kind m entity = .ok m) ∨
    ∃ restricted, entity.restrict? used = some restricted ∧
      Mesh.designateEntity model (fun v => (localNames used)[v]?) g kind m entity
        = Mesh.designateEntity R some g kind m restricted := by
  obtain ⟨tag, vertices⟩ := entity
  cases vertices with
  | nil => exact .inr ⟨_, rfl, rfl⟩
  | cons v rest =>
    have hlt := Nat.not_le.mpr (first_lt v rfl)
    by_cases hv : v ∈ used
    · have hplace : ¬ R.points.size ≤ used.idxOf v := by
        rw [points]
        exact Nat.not_le.mpr (List.idxOf_lt_length_of_mem hv)
      refine .inr ⟨_, if_pos hv, ?_⟩
      simp only [Mesh.designateEntity, List.head?_cons, if_neg hlt, localNames_of_mem sorted hv,
        if_neg hplace]
    · refine .inl ⟨if_neg hv, ?_⟩
      simp only [Mesh.designateEntity, List.head?_cons, if_neg hlt,
        (localNames_eq_none_iff sorted).mpr hv]

theorem designateGroup_restrict (m : Mesh α) {group : Group} {g : Nat}
    (first_lt : SingularityKind.ofGroupName? group.name ≠ none →
      ∀ entity ∈ group.points, ∀ v, entity.vertices.head? = some v → v < model.points.size) :
    Mesh.designateGroup model (fun v => (localNames used)[v]?) m (group, g)
      = Mesh.designateGroup R some m (group.restrict used, g) := by
  unfold Mesh.designateGroup Group.restrict
  cases hkind : SingularityKind.ofGroupName? group.name with
  | none => rfl
  | some kind =>
    rw [hkind] at first_lt
    simp only [List.foldlM_filterMap]
    refine foldlM_congr (fun m entity hentity => ?_) m
    rcases designateEntity_restrict sorted points m (first_lt nofun entity hentity) with
      ⟨hnone, hstep⟩ | ⟨restricted, hsome, hstep⟩
    · rw [hstep, hnone]
      rfl
    · rw [hstep, hsome]

theorem designate_restrict (m : Mesh α) (groups : R.groups = model.groups.map (·.restrict used))
    (first_lt : ∀ group ∈ model.groups, SingularityKind.ofGroupName? group.name ≠ none →
      ∀ entity ∈ group.points, ∀ v, entity.vertices.head? = some v → v < model.points.size) :
    m.designate model (fun v => (localNames used)[v]?) = m.designate R some := by
  unfold Mesh.designate
  rw [groups, List.zipIdx_map, List.foldlM_map]
  refine foldlM_congr (fun m x hx => ?_) m
  have hgroup : x.1 ∈ model.groups := List.mem_of_getElem? (List.mem_zipIdx_iff_getElem?.mp hx)
  exact designateGroup_restrict sorted points m (first_lt x.1 hgroup)

end

/-! ## the whole surface -/

theorem fetch_pointsOn {v : Nat} (hv : v ∈ model.pointsOn surface) :
    ∃ p, model.points[v]? = some p :=
  ⟨_, Array.getElem?_eq_getElem (mem_pointsOn.mp hv).1⟩

theorem size_points_restrict (model : Model α) (surface : Surface) :
    (model.restrict surface).points.size = (model.pointsOn surface).length := by
  show ((model.pointsOn surface).filterMap (model.points[·]?)).toArray.size = _
  rw [List.size_toArray, List.filterMap_length_eq_length]
  intro v hv
  obtain ⟨p, hp⟩ := fetch_pointsOn hv
  rw [hp]
  rfl

theorem triangles_restrict (model : Model α) (surface : Surface) :
    (model.restrict surface).surfaces.flatMap (·.triangles)
      = surface.triangles.map (·.map fun v => (model.pointsOn surface).idxOf v) := by
  show [_].flatMap _ = _
  rw [List.flatMap_singleton]

/-- the points of the surface are read one by one -/
theorem mapM_fetch_points (model : Model α) (surface : Surface) :
    (model.pointsOn surface).mapM (fetch model.points)
      = .ok (model.restrict surface).points.toList := by
  show _ = Except.ok ((model.pointsOn surface).filterMap (model.points[·]?))
  rw [mapM_eq_ok_iff]
  have hall : ∀ v ∈ model.pointsOn surface, ∃ p, model.points[v]? = some p :=
    fun v hv => fetch_pointsOn hv
  generalize model.pointsOn surface = used at hall ⊢
  induction used with
  | nil => exact .nil
  | cons v rest ih =>
    obtain ⟨p, hp⟩ := hall v List.mem_cons_self
    rw [List.filterMap_cons_some hp]
    exact .cons (fetch_eq_ok_iff.mpr hp) (ih fun w hw => hall w (List.mem_cons_of_mem _ hw))

theorem nonempty_restrict (h : model.Restrictable surface) :
    (model.restrict surface).surfaces.flatMap (·.triangles) ≠ [] := by
  rw [triangles_restrict]
  exact mt List.map_eq_nil_iff.mp h.nonempty

/-- the triangles of the surface pass the check of their corners -/
theorem checkSurface_ok (h : model.Restrictable surface) :
    (surface.triangles.zipIdx.forM fun (corners, t) =>
      Mesh.checkIndices model.points.size t corners.toList) = .ok () :=
  (forM_zipIdx_eq_ok_iff (checkCorners_eq_ok_iff _) surface.triangles).mpr h.corner_lt

section
variable [Scalar α] (h : model.Restrictable surface)
include h

/-- the mesh of a surface is made as that of the restricted model -/
theorem ofSurface_eq : (ofSurface model surface).result
    = (Mesh.assemble (model.restrict surface).points
          ((model.restrict surface).surfaces.flatMap (·.triangles))
          ((model.restrict surface).curves.flatMap Mesh.linesOfCurve)).result.mapError
        (faultInModelIndices (model.pointsOn surface).toArray) >>= fun m =>
      (m.designate (model.restrict surface) some).mapError .mesh >>= fun m =>
      .ok ⟨m, (model.pointsOn surface).toArray⟩ := by
  have sorted : (model.pointsOn surface).Pairwise (· < ·) := pointsOn_sorted
  have below : ∀ v ∈ model.pointsOn surface, v < model.points.size :=
    fun v hv => (mem_pointsOn.mp hv).1
  have hcorner : ∀ vs ∈ surface.triangles, ∀ v ∈ vs.toList, v ∈ model.pointsOn surface :=
    fun vs hvs v hv => mem_pointsOn.mpr ⟨h.corner_lt vs hvs v hv, vs, hvs, hv⟩
  have hlines : (surface.curves.filterMap model.curve?).mapM
      (localLines model.points.size (localNames (model.pointsOn surface)))
        = .ok ((model.curvesOn surface).map fun curve =>
          Mesh.linesOfCurve (curve.restrict (model.pointsOn surface))) :=
    mapM_eq_ok_map fun curve hcurve => localLines_of_mem sorted below (h.ends_mem curve hcurve)
  have hrestricted : (model.restrict surface).curves.flatMap Mesh.linesOfCurve
      = ((model.curvesOn surface).map fun curve =>
          Mesh.linesOfCurve (curve.restrict (model.pointsOn surface))).flatten := by
    rw [← List.flatMap_def, Model.restrict, List.flatMap_map]
  have htriangles : (model.restrict surface).surfaces.flatMap (·.triangles)
      = surface.triangles.map (·.map fun v => (localNames (model.pointsOn surface)).getD v v) := by
    rw [triangles_restrict]
    exact List.map_congr_left fun vs hvs => (localTriangle_eq sorted (hcorner vs hvs)).symm
  have hdesignate : ∀ m : Mesh α, m.designate model (fun v => (localNames _)[v]?)
      = m.designate (model.restrict surface) some := fun m =>
    designate_restrict sorted (size_points_restrict model surface) m rfl h.first_lt
  unfold ofSurface
  simp only [Logged.result_bind, Logged.result_require, Logged.result_lift, Logged.result_mapFault,
    Logged.result_pure, usedPoints_eq h.corner_lt]
  rw [checkSurface_ok h, mapM_fetch_points, htriangles, hrestricted]
  simp only [hlines, hdesignate]
  rfl

end

/-! ## what a patch keeps of its surface -/

section
variable {m m' : Mesh α}

theorem triangles_of_setSingularity {v : VertexId} {kind : SingularityKind}
    (hok : m.setSingularity v kind = .ok m') : m'.triangles = m.triangles := by
  obtain ⟨_, _, rfl⟩ := Mesh.setSingularity_eq_ok_iff.mp hok
  rfl

/-- designations touch no triangle -/
theorem triangles_of_designate {R : Model α} {rename : Nat → Option VertexId}
    (hok : m.designate R rename = .ok m') : m'.triangles = m.triangles :=
  Mesh.designate_invariant (P := fun s => s.triangles = m.triangles)
    (fun hs hstep => (triangles_of_setSingularity hstep).trans hs) rfl hok

end

section
variable [Scalar α] {tag : Int}

theorem ofModel_of_surface (hs : model.surface? tag = some surface) (h : surface.triangles ≠ []) :
    ofModel model tag = ofSurface model surface := by
  unfold ofModel
  rw [hs]
  exact if_neg (by simpa using h)

/-- The mesh of a surface whose curves lie on it, and the mesh of the model restricted to it.  Either
both are made or neither; they are equal; and the vertices of the patch are the used points in
increasing order, through which its triangles are those of the surface. -/
theorem ofModel_restrict (hs : model.surface? tag = some surface)
    (h : model.Restrictable surface) :
    ((∃ p, (ofModel model tag).result = .ok p) ↔
      ∃ m, (Mesh.ofModel (model.restrict surface)).result = .ok m) ∧
    ∀ p, (ofModel model tag).result = .ok p →
      (Mesh.ofModel (model.restrict surface)).result = .ok p.mesh ∧
      p.modelVertices.toList.Pairwise (· < ·) ∧
      (∀ v, v ∈ p.modelVertices ↔ ∃ vs ∈ surface.triangles, v ∈ vs.toList) ∧
      List.Forall₂ (fun us vs => ∀ j, p.modelVertex (us.get j) = .ok (vs.get j))
        p.mesh.triangles.toList surface.triangles := by
  have hpatch : ∀ p, (ofModel model tag).result = .ok p ↔
      (Mesh.ofModel (model.restrict surface)).result = .ok p.mesh ∧
        p.modelVertices = (model.pointsOn surface).toArray := by
    intro p
    rw [ofModel_of_surface hs h.nonempty, ofSurface_eq h, Mesh.ofModel_eq (nonempty_restrict h)]
    simp only [bind_eq_ok_iff, mapError_eq_ok_iff]
    refine ⟨?_, ?_⟩
    · intro ⟨m₀, hm₀, m, hm, hp⟩
      obtain rfl := Except.ok.inj hp
      exact ⟨⟨m₀, hm₀, hm⟩, rfl⟩
    · intro ⟨⟨m₀, hm₀, hm⟩, hvertices⟩
      exact ⟨m₀, hm₀, p.mesh, hm, by rw [← hvertices]⟩
  refine ⟨⟨?_, ?_⟩, fun p hp => ?_⟩
  · intro ⟨p, hp⟩
    exact ⟨p.mesh, ((hpatch p).mp hp).1⟩
  · intro ⟨m, hm⟩
    exact ⟨⟨m, _⟩, (hpatch ⟨m, _⟩).mpr ⟨hm, rfl⟩⟩
  · obtain ⟨hm, hvertices⟩ := (hpatch p).mp hp
    refine ⟨hm, ?_, fun v => ?_, ?_⟩
    · rw [hvertices]
      exact pointsOn_sorted
    · rw [hvertices, List.mem_toArray, mem_pointsOn]
      exact ⟨And.right, fun ⟨vs, hvs, hv⟩ => ⟨h.corner_lt vs hvs v hv, vs, hvs, hv⟩⟩
    · rw [Mesh.ofModel_eq (nonempty_restrict h), bind_eq_ok_iff] at hm
      obtain ⟨m₀, hm₀, hm⟩ := hm
      rw [triangles_of_designate (mapError_eq_ok_iff.mp hm),
        (Mesh.assembled_of_ok (nonempty_restrict h) hm₀).triangles_eq, triangles_restrict,
        List.forall₂_map_left_iff, List.forall₂_same]
      intro vs hvs j
      have hmem : vs.get j ∈ model.pointsOn surface :=
        mem_pointsOn.mpr ⟨h.corner_lt vs hvs _ (Triple.mem_toList.mpr ⟨j, rfl⟩), vs, hvs,
          Triple.mem_toList.mpr ⟨j, rfl⟩⟩
      rw [modelVertex, fetch_eq_ok_iff, hvertices, List.getElem?_toArray, Triple.get_map]
      exact List.getElem?_idxOf hmem

/-- two triangles about the diagonal of a square, with a curve on the diagonal -/
def square : Surface := ⟨7, [⟨1, 3, 5⟩, ⟨1, 5, 4⟩], [2, 9]⟩

/-- the square beside another surface; one of two designated points is not on it -/
def squareModel : Model Float where
  points := #[⟨⟨5, 0, 0⟩, none⟩, ⟨⟨0, 0, 0⟩, some (.point 1)⟩, ⟨⟨5, 1, 0⟩, none⟩, ⟨⟨1, 0, 0⟩, none⟩,
    ⟨⟨0, 1, 0⟩, none⟩, ⟨⟨1, 1, 0⟩, none⟩]
  surfaces := [⟨3, [⟨0, 1, 2⟩], []⟩, square]
  curves := [⟨2, [(1, 5)]⟩]
  groups := [⟨"SINGULARITY_OF_INDEX_FIVE", [⟨1, [3]⟩, ⟨2, [0]⟩, ⟨3, []⟩]⟩]

theorem restrictable_square : squareModel.Restrictable square where
  nonempty := by decide
  corner_lt := by decide
  ends_mem := by decide
  first_lt := by
    intro group hgroup _ entity hentity v hv
    obtain rfl := List.mem_singleton.mp hgroup
    have hfirst : ∀ entity ∈ ([⟨1, [3]⟩, ⟨2, [0]⟩, ⟨3, []⟩] : List PointEntity),
        ∀ v ∈ entity.vertices, v < 6 := by decide
    exact hfirst entity hentity v (List.mem_of_mem_head? hv)

theorem restrict_square : ∃ p, (ofModel squareModel 7).result = .ok p ∧
    p.modelVertices = #[1, 3, 4, 5] ∧ p.mesh.singularities.contains 1 = true ∧
    (Mesh.ofModel (squareModel.restrict square)).result = .ok p.mesh := by
  have htest : yields (ofModel squareModel 7).result (fun p =>
      p.modelVertices == #[1, 3, 4, 5] && p.mesh.singularities.contains 1) = true := by
    decide +kernel
  obtain ⟨p, hp, htest⟩ := exists_of_yields htest
  rw [Bool.and_eq_true, beq_iff_eq] at htest
  exact ⟨p, hp, htest.1, htest.2,
    ((ofModel_restrict (by decide) restrictable_square).2 p hp).1⟩

end
end Patch
end DiskCut
