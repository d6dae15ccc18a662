import DiskCut.Proofs.Patch.Restricted

/-!
# What an error about a patch says

* `Designates model v kind`   a group of the model designates the point `v`
* `Blamed model tag cause`    the error says something true about the model, in the indices of the
                              model; only a conflict of designations is told in those of the patch
* `blamed_of_ofModel`         every error of `Patch.ofModel` is of this kind

The errors come from three numberings: the checks of the surface speak of the model, the topology of
the patch, whose pairs are led back, and the designations of both.
-/

namespace DiskCut
open Std

/-- some entity of a group for the singularity `kind` has the point `v` first -/
def Designates {α : Type} (model : Model α) (v : Nat) (kind : SingularityKind) : Prop :=
  ∃ group ∈ model.groups, SingularityKind.ofGroupName? group.name = some kind ∧
    ∃ entity ∈ group.points, entity.vertices.head? = some v

/-- what an error of the patch for the surface `tag` means -/
inductive Blamed {α : Type} (model : Model α) (tag : Int) : MeshError → Prop where
  | unknownSurface : model.surface? tag = none → Blamed model tag (.unknownSurface tag)
  /-- a corner is no point -/
  | corner {surface : Surface} {t v : Nat} {vs : Triple Nat} : model.surface? tag = some surface →
      surface.triangles[t]? = some vs → v ∈ vs.toList → model.points.size ≤ v →
      Blamed model tag (.invalidVertexIndex t v)
  /-- an end of a segment is no point -/
  | segmentEnd {surface : Surface} {curve : Curve} {s a b v : Nat} :
      model.surface? tag = some surface → curve ∈ model.curvesOn surface →
      curve.segments[s]? = some (a, b) → v = a ∨ v = b → model.points.size ≤ v →
      Blamed model tag (.invalidVertexIndex s v)
  /-- a designated vertex is no point -/
  | designated {group : Group} {entity : PointEntity} {g v : Nat} : model.groups[g]? = some group →
      SingularityKind.ofGroupName? group.name ≠ none → entity ∈ group.points →
      entity.vertices.head? = some v → model.points.size ≤ v →
      Blamed model tag (.invalidVertexIndex g v)
  /-- a triangle has a point twice -/
  | degenerate {surface : Surface} {t : Nat} {vs : Triple Nat} : model.surface? tag = some surface →
      surface.triangles[t]? = some vs → ¬ vs.Distinct → Blamed model tag (.degenerateTriangle t)
  /-- a segment between points is no side of a triangle -/
  | noSide {surface : Surface} {curve : Curve} {a b : Nat} : model.surface? tag = some surface →
      curve ∈ model.curvesOn surface → (a, b) ∈ curve.segments → a < model.points.size →
      b < model.points.size → (∀ vs ∈ surface.triangles, edgeKey a b ∉ vs.keys.toList) →
      Blamed model tag (.featureEdgeNotFound a b)
  /-- a pair of points is a side of three triangles -/
  | thirdUse {surface : Surface} {u v : Nat} : model.surface? tag = some surface →
      u < model.points.size → v < model.points.size →
      2 < surface.triangles.countP ((u, v) ∈ ·.keys.toList) →
      Blamed model tag (.nonManifoldEdge u v)
  /-- the point behind vertex `i` of the patch is designated in two ways -/
  | conflict {surface : Surface} {i v : Nat} {first second : SingularityKind} :
      model.surface? tag = some surface → (model.pointsOn surface)[i]? = some v →
      Designates model v first → Designates model v second → first ≠ second →
      Blamed model tag (.conflictingSingularity i first.value second.value)

namespace Patch
variable {α : Type} {model : Model α} {surface : Surface} {tag : Int} {cause : MeshError}

/-! ## the checks of the surface -/

theorem blamed_of_checkCorners (hs : model.surface? tag = some surface)
    (h : surface.triangles.zipIdx.forM (checkCorners model.points.size) = .error cause) :
    Blamed model tag cause := by
  rcases forM_zipIdx_cases (checkCorners_eq_ok_iff model.points.size) surface.triangles 0 with
    ⟨hok, _⟩ | ⟨t, vs, _, hfirst, hcause, herr⟩
  · rw [hok] at h
    cases h
  · rw [herr] at h
    obtain rfl := Except.error.inj h
    rw [Nat.zero_add] at hcause
    obtain ⟨v, hv, hle, rfl⟩ := Mesh.checkIndices_stopped hcause
    exact .corner hs hfirst.getElem? hv hle

/-! ## the curves of the surface -/

/-- a line of the patch stands for a segment of a listed curve -/
def FromSegment (model : Model α) (surface : Surface) (line : Line) : Prop :=
  ∃ curve ∈ model.curvesOn surface, ∃ a b, (a, b) ∈ curve.segments ∧ a < model.points.size ∧
    b < model.points.size ∧ Stands (model.pointsOn surface) line.ends.1 a ∧
    Stands (model.pointsOn surface) line.ends.2 b

section
variable {used : List Nat} (sorted : used.Pairwise (· < ·)) {count : Nat} {curve : Int}
  {a b s : Nat} {line : Line}
include sorted

theorem localLine_eq_ok (h : localLine count (localNames used) curve ((a, b), s) = .ok line) :
    a < count ∧ b < count ∧ Stands used line.ends.1 a ∧ Stands used line.ends.2 b := by
  unfold localLine at h
  obtain ⟨_, hcheck, h⟩ := bind_eq_ok_iff.mp h
  rw [Mesh.checkIndices_eq_ok_iff, List.forall_mem_cons, List.forall_mem_singleton] at hcheck
  split at h
  · rename_i i j hi hj
    obtain rfl := Except.ok.inj h
    exact ⟨hcheck.1, hcheck.2, (localNames_eq_some_iff sorted).mp hi,
      (localNames_eq_some_iff sorted).mp hj⟩
  · cases h

theorem localLine_stopped
    (h : localLine count (localNames used) curve ((a, b), s) = .error cause) :
    (∃ v, (v = a ∨ v = b) ∧ count ≤ v ∧ cause = .invalidVertexIndex s v) ∨
    (a < count ∧ b < count ∧ (a ∉ used ∨ b ∉ used) ∧ cause = .featureEdgeNotFound a b) := by
  unfold localLine at h
  rcases bind_eq_error_iff.mp h with h | ⟨_, hcheck, h⟩
  · obtain ⟨v, hv, hle, rfl⟩ := Mesh.checkIndices_stopped h
    simp only [List.mem_cons, List.not_mem_nil, or_false] at hv
    exact .inl ⟨v, hv, hle, rfl⟩
  · rw [Mesh.checkIndices_eq_ok_iff, List.forall_mem_cons, List.forall_mem_singleton] at hcheck
    split at h
    · cases h
    · rename_i hnone
      refine .inr ⟨hcheck.1, hcheck.2, ?_, (Except.error.inj h).symm⟩
      by_contra hboth
      rw [not_or, not_not, not_not] at hboth
      obtain ⟨i, hi⟩ := exists_stands hboth.1
      obtain ⟨j, hj⟩ := exists_stands hboth.2
      exact hnone i j ((localNames_eq_some_iff sorted).mpr hi)
        ((localNames_eq_some_iff sorted).mpr hj)

end

section
variable (hs : model.surface? tag = some surface)
include hs

theorem blamed_of_localLines
    (h : (model.curvesOn surface).mapM
      (localLines model.points.size (localNames (model.pointsOn surface))) = .error cause) :
    Blamed model tag cause := by
  obtain ⟨curve, hcurve, h⟩ := mapM_stopped h
  obtain ⟨⟨⟨a, b⟩, s⟩, hsegment, h⟩ := mapM_stopped h
  have hget := List.mem_zipIdx_iff_getElem?.mp hsegment
  rcases localLine_stopped pointsOn_sorted h with ⟨v, hv, hle, rfl⟩ | ⟨ha, hb, hoff, rfl⟩
  · exact .segmentEnd hs hcurve hget hv hle
  · refine .noSide hs hcurve (List.mem_of_getElem? hget) ha hb fun vs hvs hkey => ?_
    obtain ⟨hav, hbv⟩ := Triple.corners_of_mem_keys hkey
    rcases hoff with hoff | hoff
    · exact hoff (mem_pointsOn.mpr ⟨ha, vs, hvs, hav⟩)
    · exact hoff (mem_pointsOn.mpr ⟨hb, vs, hvs, hbv⟩)

omit hs in
theorem fromSegment_of_localLines {lines : List (List Line)}
    (h : (model.curvesOn surface).mapM
      (localLines model.points.size (localNames (model.pointsOn surface))) = .ok lines) :
    ∀ line ∈ lines.flatten, FromSegment model surface line := by
  intro line hline
  obtain ⟨part, hpart, hline⟩ := List.mem_flatten.mp hline
  obtain ⟨curve, hcurve, hlocal⟩ := (mem_mapM_iff h).mp hpart
  obtain ⟨⟨⟨a, b⟩, s⟩, hsegment, hlocal⟩ := (mem_mapM_iff hlocal).mp hline
  have hget := List.mem_zipIdx_iff_getElem?.mp hsegment
  exact ⟨curve, hcurve, a, b, List.mem_of_getElem? hget, localLine_eq_ok pointsOn_sorted hlocal⟩

/-! ## the topology of the patch -/

/-- what the builder refuses about the renamed lists is wrong about those of the model -/
theorem blamed_of_refused
    (corner_lt : ∀ vs ∈ surface.triangles, ∀ v ∈ vs.toList, v < model.points.size)
    {lines : List Line} (hlines : ∀ line ∈ lines, FromSegment model surface line)
    (h : Refused (model.pointsOn surface).length
      (surface.triangles.map (localTriangle (model.pointsOn surface))) lines cause) :
    Blamed model tag (inModelIndices (model.pointsOn surface).toArray cause) := by
  have sorted : (model.pointsOn surface).Pairwise (· < ·) := pointsOn_sorted
  have hrenamed : ∀ vs ∈ surface.triangles,
      Renamed (model.pointsOn surface) (localTriangle (model.pointsOn surface) vs) vs :=
    fun vs hvs => renamed_localTriangle sorted fun v hv =>
      mem_pointsOn.mpr ⟨corner_lt vs hvs v hv, vs, hvs, hv⟩
  cases h with
  | @corner t i v us hfirst hcorner =>
    obtain ⟨vs, hvs, rfl⟩ := List.mem_map.mp hfirst.mem
    obtain ⟨j, rfl⟩ := Triple.mem_toList.mp hcorner.mem
    exact absurd ((hrenamed vs hvs) j).lt_length hcorner.lacks
  | @degenerate t us hfirst hlt =>
    have hget := hfirst.getElem?
    rw [List.getElem?_map, Option.map_eq_some_iff] at hget
    obtain ⟨vs, hvs, rfl⟩ := hget
    refine .degenerate hs hvs fun hdistinct => hfirst.lacks ⟨hlt, ?_⟩
    exact (hrenamed vs (List.mem_of_getElem? hvs)).distinct hdistinct
  | @lineEnd s i v line _ hfirst hend =>
    obtain ⟨_, _, a, b, _, _, _, ha, hb⟩ := hlines line hfirst.mem
    refine absurd ?_ hend.not_all
    rw [List.forall_mem_cons, List.forall_mem_singleton]
    exact ⟨ha.lt_length, hb.lt_length⟩
  | @thirdUse before after k hfits _ hscan hfull _ =>
    have hmany : 2 < (surface.triangles.map (localTriangle (model.pointsOn surface))).countP
        (k ∈ ·.keys.toList) := by
      rw [← count_sideScan fun us hus => (hfits us hus).2, hscan, List.count_append,
        List.count_cons_self, hfull]
      omega
    obtain ⟨us, hus, hk⟩ := List.countP_pos_iff.mp (Nat.lt_trans Nat.zero_lt_two hmany)
    obtain ⟨vs, hvs, rfl⟩ := List.mem_map.mp hus
    obtain ⟨u, v, hu, hv⟩ := (hrenamed vs hvs).exists_stands sorted (of_decide_eq_true hk)
    rw [List.countP_map] at hmany
    have hsame : surface.triangles.countP ((fun us => decide (k ∈ us.keys.toList)) ∘
          localTriangle (model.pointsOn surface))
        = surface.triangles.countP ((u, v) ∈ ·.keys.toList) := by
      refine List.countP_congr fun vs hvs => ?_
      rw [Function.comp_apply, decide_eq_true_iff, decide_eq_true_iff]
      exact (hrenamed vs hvs).mem_keys sorted hu hv
    rw [hsame] at hmany
    show Blamed model tag (.nonManifoldEdge _ _)
    rw [hu.getD_toArray, hv.getD_toArray]
    exact .thirdUse hs (mem_pointsOn.mp hu.mem).1 (mem_pointsOn.mp hv.mem).1 hmany
  | @noSide s line _ _ _ hfirst =>
    obtain ⟨curve, hcurve, a, b, hsegment, ha, hb, hi, hj⟩ := hlines line hfirst.mem
    show Blamed model tag (.featureEdgeNotFound _ _)
    rw [hi.getD_toArray, hj.getD_toArray]
    refine .noSide hs hcurve hsegment ha hb fun vs hvs hkey => hfirst.lacks ?_
    obtain ⟨h₁, h₂⟩ := hi.edgeKey sorted hj
    exact ⟨_, List.mem_map_of_mem hvs, ((hrenamed vs hvs).mem_keys sorted h₁ h₂).mpr hkey⟩

/-! ## the designations -/

/-- the patch has a vertex for each used point, and its singularities come from groups -/
structure Designating (model : Model α) (surface : Surface) (m : Mesh α) : Prop where
  size : m.vertices.size = (model.pointsOn surface).length
  singular : ∀ (i : VertexId) (kind : SingularityKind), m.singularities[i]? = some kind →
    ∃ v, Stands (model.pointsOn surface) i v ∧ Designates model v kind

/-- one designation, of the point behind a vertex -/
theorem Designating.setSingularity {m : Mesh α} (h : Designating model surface m) {i : VertexId}
    {v : Nat} (hi : Stands (model.pointsOn surface) i v) {kind : SingularityKind}
    (hv : Designates model v kind) :
    (∃ next, m.setSingularity i kind = .ok next ∧ Designating model surface next) ∨
    ∃ cause, m.setSingularity i kind = .error cause ∧ Blamed model tag cause := by
  have hlt : ¬ m.vertices.size ≤ i := by
    rw [h.size]
    exact Nat.not_le.mpr hi.lt_length
  unfold Mesh.setSingularity Mesh.singularity?
  rw [if_neg hlt]
  cases hpresent : m.singularities[i]? with
  | none =>
    refine .inl ⟨_, rfl, h.size, fun j kind' hj => ?_⟩
    change (m.singularities.insert i kind)[j]? = some kind' at hj
    rw [ExtTreeMap.getElem?_insert] at hj
    split at hj
    · rename_i hij
      obtain rfl := Nat.compare_eq_eq.mp hij
      obtain rfl := Option.some.inj hj
      exact ⟨v, hi, hv⟩
    · exact h.singular j kind' hj
  | some present =>
    obtain ⟨w, hw, hdesignated⟩ := h.singular i present hpresent
    obtain rfl := hi.point_eq hw
    by_cases hsame : present = kind
    · exact .inl ⟨m, if_pos hsame, h⟩
    · exact .inr ⟨_, if_neg hsame, .conflict hs hi hdesignated hv hsame⟩

theorem Designating.entity {m : Mesh α} (h : Designating model surface m) {group : Group} {g : Nat}
    {kind : SingularityKind} (hgroup : model.groups[g]? = some group)
    (hkind : SingularityKind.ofGroupName? group.name = some kind) {entity : PointEntity}
    (hentity : entity ∈ group.points) :
    (∃ next, Mesh.designateEntity model (fun v => (localNames (model.pointsOn surface))[v]?) g kind m
      entity = .ok next ∧ Designating model surface next) ∨
    ∃ cause, Mesh.designateEntity model (fun v => (localNames (model.pointsOn surface))[v]?) g kind m
      entity = .error cause ∧ Blamed model tag cause := by
  unfold Mesh.designateEntity
  cases hfirst : entity.vertices.head? with
  | none => exact .inl ⟨m, rfl, h⟩
  | some v =>
    by_cases hle : model.points.size ≤ v
    · refine .inr ⟨_, if_pos hle, .designated hgroup ?_ hentity hfirst hle⟩
      rw [hkind]
      exact nofun
    · simp only [if_neg hle]
      cases hname : (localNames (model.pointsOn surface))[v]? with
      | none => exact .inl ⟨m, rfl, h⟩
      | some i =>
        exact h.setSingularity hs ((localNames_eq_some_iff pointsOn_sorted).mp hname)
          ⟨group, List.mem_of_getElem? hgroup, hkind, entity, hentity, hfirst⟩

theorem Designating.designate {m : Mesh α} (h : Designating model surface m) :
    (∃ last, m.designate model (fun v => (localNames (model.pointsOn surface))[v]?) = .ok last ∧
      Designating model surface last) ∨
    ∃ cause, m.designate model (fun v => (localNames (model.pointsOn surface))[v]?) = .error cause ∧
      Blamed model tag cause := by
  refine foldlM_cases (fun m x hx hm => ?_) h
  obtain ⟨group, g⟩ := x
  have hgroup := List.mem_zipIdx_iff_getElem?.mp hx
  unfold Mesh.designateGroup
  cases hkind : SingularityKind.ofGroupName? group.name with
  | none => exact .inl ⟨m, rfl, hm⟩
  | some kind => exact foldlM_cases (fun m entity hentity hm => hm.entity hs hgroup hkind hentity) hm

/-! ## the whole patch -/

variable [Scalar α]

/-- what stops after the lines are found, on the points of the surface -/
theorem blamed_of_assembled
    (corner_lt : ∀ vs ∈ surface.triangles, ∀ v ∈ vs.toList, v < model.points.size)
    {lines : List Line} (hlines : ∀ line ∈ lines, FromSegment model surface line)
    (nonempty : surface.triangles ≠ []) {fault : Fault}
    (h : ((Mesh.assemble (model.restrict surface).points
          (surface.triangles.map (localTriangle (model.pointsOn surface))) lines).result.mapError
        (faultInModelIndices (model.pointsOn surface).toArray) >>= fun m =>
      (m.designate model (fun v => (localNames (model.pointsOn surface))[v]?)).mapError .mesh
        >>= fun m => .ok (⟨m, (model.pointsOn surface).toArray⟩ : Patch α)) = .error fault) :
    ∃ cause, fault = .mesh cause ∧ Blamed model tag cause := by
  have hnonempty : surface.triangles.map (localTriangle (model.pointsOn surface)) ≠ [] :=
    mt List.map_eq_nil_iff.mp nonempty
  rcases Mesh.assemble_cases (model.restrict surface).points lines hnonempty with
    ⟨m, hok, _, hassembled⟩ | ⟨cause, herr, hrefused⟩
  · rw [hok] at h
    have hstart : Designating model surface m := {
      size := by rw [hassembled.size_vertices, size_points_restrict]
      singular := by
        intro i kind hi
        rw [hassembled.undesignated, ExtTreeMap.getElem?_empty] at hi
        cases hi }
    rcases hstart.designate hs with ⟨last, hlast, _⟩ | ⟨cause, hcause, hblamed⟩
    · simp only [mapError_ok, bind, Except.bind, hlast] at h
      cases h
    · simp only [mapError_ok, mapError_error, bind, Except.bind, hcause] at h
      exact ⟨cause, (Except.error.inj h).symm, hblamed⟩
  · rw [herr] at h
    rw [size_points_restrict] at hrefused
    exact ⟨_, (Except.error.inj h).symm, blamed_of_refused hs corner_lt hlines hrefused⟩

theorem blamed_of_ofSurface (nonempty : surface.triangles ≠ []) {fault : Fault}
    (h : (ofSurface model surface).result = .error fault) :
    ∃ cause, fault = .mesh cause ∧ Blamed model tag cause := by
  unfold ofSurface at h
  simp only [Logged.result_bind, Logged.result_require, Logged.result_lift, Logged.result_mapFault,
    Logged.result_pure] at h
  rcases bind_eq_error_iff.mp h with hstop | ⟨_, hcheck, hrest⟩
  · obtain ⟨cause, hcause, rfl⟩ := mapError_eq_error_iff.mp hstop
    exact ⟨cause, rfl, blamed_of_checkCorners hs hcause⟩
  have corner_lt : ∀ vs ∈ surface.triangles, ∀ v ∈ vs.toList, v < model.points.size :=
    (forM_zipIdx_eq_ok_iff (checkCorners_eq_ok_iff _) surface.triangles).mp
      (mapError_eq_ok_iff.mp hcheck)
  rw [usedPoints_eq corner_lt] at hrest
  rcases bind_eq_error_iff.mp hrest with hstop | ⟨lines, hlines, hrest⟩
  · obtain ⟨cause, hcause, rfl⟩ := mapError_eq_error_iff.mp hstop
    exact ⟨cause, rfl, blamed_of_localLines hs hcause⟩
  have hsegments := fromSegment_of_localLines (mapError_eq_ok_iff.mp hlines)
  rw [mapM_fetch_points] at hrest
  exact blamed_of_assembled hs corner_lt hsegments nonempty hrest

end

/-- Every error of a patch says something true about the model, in the indices of the model, except
that a conflict of designations names the vertex of the patch. -/
theorem blamed_of_ofModel [Scalar α] {fault : Fault} (h : (ofModel model tag).result = .error fault) :
    ∃ cause, fault = .mesh cause ∧ Blamed model tag cause := by
  unfold ofModel at h
  cases hs : model.surface? tag with
  | none =>
    rw [hs] at h
    exact ⟨_, (Except.error.inj h).symm, .unknownSurface hs⟩
  | some surface =>
    rw [hs] at h
    by_cases hempty : surface.triangles = []
    · simp only [hempty, List.isEmpty_nil, if_true, Logged.result_bind, Logged.result_warn] at h
      cases h
    · simp only [List.isEmpty_iff, if_neg hempty] at h
      exact blamed_of_ofSurface hs hempty h

/-- a triangle on the last three of four points, the last one designated in two ways -/
def offsetModel : Model Float where
  points := #[⟨⟨5, 0, 0⟩, none⟩, ⟨⟨0, 0, 0⟩, none⟩, ⟨⟨1, 0, 0⟩, none⟩, ⟨⟨0, 1, 0⟩, none⟩]
  surfaces := [⟨1, [⟨1, 2, 3⟩], []⟩]
  curves := []
  groups := [⟨"SINGULARITY_OF_INDEX_FIVE", [⟨1, [3]⟩]⟩, ⟨"SINGULARITY_OF_INDEX_THREE", [⟨1, [3]⟩]⟩]

theorem ofModel_offset :
    (ofModel offsetModel 1).result = .error (.mesh (.conflictingSingularity 2 1 (-1))) :=
  eq_of_stopsWith (by decide +kernel)

theorem blamed_offset : Blamed offsetModel 1 (.conflictingSingularity 2 1 (-1)) := by
  obtain ⟨cause, hcause, hblamed⟩ := blamed_of_ofModel ofModel_offset
  rw [Fault.mesh.inj hcause]
  exact hblamed

/-- the vertex that a conflict names need not be the index of a designated point -/
theorem conflict_not_in_model_indices :
    (ofModel offsetModel 1).result = .error (.mesh (.conflictingSingularity 2 1 (-1))) ∧
      ¬ ∃ kind, Designates offsetModel 2 kind := by
  refine ⟨ofModel_offset, ?_⟩
  intro ⟨kind, group, hgroup, _, entity, hentity, hfirst⟩
  have hthird : ∀ group ∈ offsetModel.groups, ∀ entity ∈ group.points,
      entity.vertices.head? ≠ some 2 := by decide
  exact hthird group hgroup entity hentity hfirst

end Patch
end DiskCut
