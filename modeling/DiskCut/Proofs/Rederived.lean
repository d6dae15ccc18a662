import DiskCut.Proofs.Edited
import DiskCut.Proofs.Mesh.Lined
import DiskCut.Proofs.Mesh.Stops

/-!
# Updating the edges and deriving them afresh

An update of the edges changes the table that is there and keeps its marks; a derivation makes the
table anew from triangles and lines.  On a mesh that was obtained and then reworked the two come to
the same.

* `Obtained.lined`     obtained meshes carry the marks of their lines
* `Reworked m`         `m` is an obtained mesh after edits that keep its lines on its edges
* `Reworked.lined`     so it carries the marks of its lines as well
* `Agreeing m`         an update and a derivation of `m` stop together, or know the same in the end
* `agreeing_of_reworked`   so they do for every reworked mesh
-/

namespace DiskCut
open Std

namespace Mesh
variable {α : Type} [Scalar α] {m m' : Mesh α}

/-! ## meshes that carry the marks of their lines -/

theorem lined_of_assemble {points : Array (ModelPoint α)} {triangles : List (Triple Nat)}
    {lines : List Line} (h : (assemble points triangles lines).result = .ok m) : m.Lined := by
  rcases derived_of_assemble h with rfl | hderived
  · exact lined_of_nil rfl rfl
  · exact hderived.lined

theorem lined_of_cut {c : FeatureCut α} (hok : m.cutAlongFeatures = .ok c) : c.mesh.Lined := by
  obtain ⟨bare, split, hdrawn, hlast⟩ := exists_drawn_of_cut hok
  obtain ⟨joined, oriented, hjoin, horient, hlast⟩ := complete_eq_ok_iff.mp hlast
  have hkept := hdrawn.kept (traced_clearTopology bare) (marks_of_empty rfl rfl rfl)
  have hsplit : split.Tabled ∧ split.Lined := by
    obtain ⟨htraced, hlined⟩ := drawLines_invariant (P := fun m => m.Traced [] [] ∧ m.Lined)
      (fun a b curve hm =>
        ⟨hm.1.insertFeatureEdge a b curve, hm.2.insertFeatureEdge hm.1.tabled a b curve⟩)
      split.lines.toList ⟨traced_clearTopology bare, lined_of_nil rfl rfl⟩
    unfold DrawnOn at hdrawn
    rw [hdrawn]
    exact ⟨{ htraced.tabled with }, hlined.of_same rfl rfl rfl⟩
  have hjoined := (hkept.refreshed hjoin).lined hsplit.1 hsplit.2
  exact (hjoined.of_clearNormals (clearNormals_updateNormals horient)).updateFeatureIncidence hlast

theorem Obtained.lined (h : Obtained m) : m.Lined := by
  induction h with
  | empty => exact lined_of_nil rfl rfl
  | ofTriangles hok => exact lined_of_assemble hok
  | ofModel hok => exact ofModel_invariant lined_of_assemble (fun h hok => h.setSingularity hok) hok
  | ofPatch hok =>
    exact ofPatch_invariant lined_of_assemble (fun h hok => h.setSingularity hok)
      (lined_of_nil rfl rfl) hok
  | copy h hok _ =>
    unfold Mesh.copy at hok
    exact (rebuilt_of_deriveTopology h.coherent.corner_lt (mapError_eq_ok_iff.mp hok)).lined
  | cutAlongFeatures _ hok _ => exact lined_of_cut hok
  | setSingularity _ hok ih => exact ih.setSingularity hok
  | updateEdges h ih =>
    rw [h.coherent.updateEdges]
    exact ih
  | updateNormals _ ih => exact ih.of_clearNormals (editsNormals_updateNormals _)

/-- a mesh that was obtained and then edited in any order; corners stay on vertices, and updates of
the edges complete -/
inductive Reworked : Mesh α → Prop where
  | obtained {m : Mesh α} : Obtained m → Reworked m
  | addVertex {m : Mesh α} (position : Vec3 α) (entity : Option Entity) :
      Reworked m → Reworked (m.addVertex position entity)
  | setCorner {m m' : Mesh α} {t : TriangleId} {corner : Nat} {v : VertexId} :
      Reworked m → v < m.vertices.size → m.setCorner t corner v = .ok m' → Reworked m'
  | insertEdge {m : Mesh α} (a b : VertexId) : Reworked m → Reworked (m.insertEdge a b).1
  | insertFeatureEdge {m : Mesh α} (a b : VertexId) (curve : Option Int) :
      Reworked m → Reworked (m.insertFeatureEdge a b curve).1
  | updateEdges {m m' : Mesh α} : Reworked m → m.updateEdges = .ok m' → Reworked m'

theorem Reworked.edited (h : Reworked m) : Edited m := by
  induction h with
  | obtained h => exact .obtained h
  | addVertex position entity _ ih => exact ih.addVertex position entity
  | setCorner _ _ hok ih => exact ih.setCorner hok
  | insertEdge a b _ ih => exact ih.insertEdge a b
  | insertFeatureEdge a b curve _ ih => exact ih.insertFeatureEdge a b curve
  | updateEdges _ hok ih => exact meshAfter_of_ok hok ih.updateEdges

theorem Reworked.tabled (h : Reworked m) : m.Tabled := by
  obtain ⟨_, _, hseen⟩ := h.edited.kept.traced
  exact hseen.tabled

theorem Reworked.lined (h : Reworked m) : m.Lined := by
  induction h with
  | obtained h => exact h.lined
  | addVertex position entity _ ih => exact ih.of_same rfl rfl rfl
  | setCorner _ _ hok ih => exact ih.setCorner hok
  | insertEdge a b h ih => exact ih.insertEdge h.tabled a b
  | insertFeatureEdge a b curve h ih => exact ih.insertFeatureEdge h.tabled a b curve
  | updateEdges h hok ih => exact (h.edited.kept.refreshed hok).lined h.tabled ih

theorem Reworked.corner_lt (h : Reworked m) : ∀ {t : TriangleId} {vs : Triple VertexId},
    m.triangles[t]? = some vs → ∀ j, vs.get j < m.vertices.size := by
  induction h with
  | obtained h => exact h.coherent.corner_lt
  | @addVertex m position entity _ ih =>
    intro t vs hvs j
    show vs.get j < (m.vertices.push _).size
    rw [Array.size_push]
    exact Nat.lt_succ_of_lt (ih hvs j)
  | setCorner _ hv hok ih =>
    obtain ⟨_, _, rfl⟩ := setCorner_eq_ok_iff.mp hok
    intro t vs hvs j
    simp only [Array.getElem?_modify] at hvs
    split at hvs
    · obtain ⟨old, hold, rfl⟩ := Option.map_eq_some_iff.mp hvs
      rw [Triple.get_set]
      split
      · exact hv
      · exact ih hold j
    · exact ih hvs j
  | @insertEdge m a b _ ih =>
    rcases insertEdge_cases m a b with ⟨_, _, hins⟩ | ⟨_, hins⟩
    · rw [hins]
      exact ih
    · rw [hins]
      exact ih
  | @insertFeatureEdge m a b curve _ ih =>
    rcases insertFeatureEdge_cases m a b curve with ⟨_, _, hins⟩ | ⟨_, hins⟩
    · rw [hins]
      exact ih
    · rw [hins]
      exact ih
  | updateEdges h hok ih =>
    have hnew := h.edited.kept.refreshed hok
    intro t vs hvs j
    rw [hnew.triangles] at hvs
    rw [hnew.vertices]
    exact ih hvs j

/-! ## what they know in the end -/

/-- an update of `m` and a derivation of `m` afresh stop together, or know the same in the end -/
structure Agreeing (m : Mesh α) : Prop where
  /-- both stop on the same third triangle of a pair -/
  stops_iff : ∀ u v, StopsWith m.updateEdges (.nonManifoldEdge u v) ↔
    StopsWith m.deriveTopology (.nonManifoldEdge u v)
  /-- an update stops on nothing else -/
  completes : (∃ m', m.updateEdges = .ok m') ∨
    ∃ u v, StopsWith m.updateEdges (.nonManifoldEdge u v)
  /-- where an update completes, a derivation asks for lines that are sides -/
  derives_iff : ∀ m', m.updateEdges = .ok m' → ((∃ d, m.deriveTopology = .ok d) ↔
    ∀ line ∈ m.lines.toList, IsSide m.triangles.toList line)
  /-- and names the first line that is none -/
  uncovered : ∀ m', m.updateEdges = .ok m' →
    (¬ ∀ line ∈ m.lines.toList, IsSide m.triangles.toList line) →
    ∃ i line, FirstWithout (IsSide m.triangles.toList) m.lines.toList i line ∧
      StopsWith m.deriveTopology (.featureEdgeNotFound line.ends.1 line.ends.2)
  /-- where both complete, they have edges on the same pairs, with the same marks and triangles -/
  same : ∀ m' d, m.updateEdges = .ok m' → m.deriveTopology = .ok d →
    ∀ k, (k ∈ d.pairs ↔ k ∈ m'.pairs) ∧ d.described? k = m'.described? k

/-- the lines of a mesh are sides, so all of its features are, and the pairs that an update keeps are
those that a derivation makes -/
theorem Lined.mem_pairs_iff {d : Mesh α} (h : m.Lined) (hnew : Refreshed m m') (hd : Rebuilt m d)
    (k : VertexId × VertexId) : k ∈ d.pairs ↔ k ∈ m'.pairs := by
  rw [hd.pairs_eq, List.mem_eraseDups, map_fst_sideList, hnew.mem_pairs]
  refine ⟨.inl, fun hk => hk.elim id ?_⟩
  rintro ⟨x, hx, hflag, rfl⟩
  obtain ⟨e, hx⟩ := Array.mem_iff_getElem?.mp hx
  have hmark : (lineMark m.lines.toList x.ends).1 = true :=
    (congrArg Prod.fst (h.marked hx)).symm.trans hflag
  obtain ⟨line, hline, hends⟩ := lineMark_flag.mp hmark
  rw [← hends]
  exact mem_sideScan.mpr (hd.sides hline)

/-- an update patches the table of edges, a derivation makes it anew; after any edits of an obtained
mesh that keep its corners in range and whose updates complete, the two agree -/
theorem agreeing_of_reworked (h : Reworked m) : Agreeing m where
  stops_iff := fun u v => (h.edited.kept.updateEdges_stops_iff u v).trans
    (deriveTopology_stops_iff h.corner_lt u v).symm
  completes := h.edited.kept.updateEdges_sides.imp (fun ⟨m', hok, _⟩ => ⟨m', hok⟩)
    fun ⟨k, _, hstop⟩ => ⟨k.1, k.2, hstop⟩
  derives_iff := by
    intro m' hok
    have hnew := h.edited.kept.refreshed hok
    rcases deriveTopology_of_few h.corner_lt hnew.few with ⟨d, hd, hrebuilt⟩ |
      ⟨_, _, hfirst, hstop⟩
    · exact iff_of_true ⟨d, hd⟩ fun _ hline => hrebuilt.sides hline
    · exact iff_of_false (fun ⟨_, hd⟩ => not_stopsWith_of_ok hd hstop) hfirst.not_all
  uncovered := by
    intro m' hok hno
    have hnew := h.edited.kept.refreshed hok
    exact (deriveTopology_of_few h.corner_lt hnew.few).resolve_left
      fun ⟨_, _, hrebuilt⟩ => hno fun _ hline => hrebuilt.sides hline
  same := by
    intro m' d hok hd k
    have hnew := h.edited.kept.refreshed hok
    have hrebuilt := rebuilt_of_deriveTopology h.corner_lt hd
    have hlined := hnew.lined h.tabled h.lined
    have hpairs := h.lined.mem_pairs_iff hnew hrebuilt k
    refine ⟨hpairs, ?_⟩
    rw [hrebuilt.lined.described?_eq hrebuilt.tabled hrebuilt.adjacent,
      hlined.described?_eq hnew.tabled hnew.adjacent, lines_of_given hrebuilt.given_eq, hnew.lines,
      trianglesOn_of_given hrebuilt.given_eq, trianglesOn_of_triangles hnew.triangles]
    simp only [hpairs]

/-- a feature drawn from 1 to 3, and the third triangle moved onto it -/
theorem agreeing_threeTriangles : ∃ m moved m' d, threeTriangles.result = .ok m ∧
    (m.insertFeatureEdge 1 3 (some 7)).1.setCorner 2 2 1 = .ok moved ∧
    moved.updateEdges = .ok m' ∧ moved.deriveTopology = .ok d ∧
    m'.described? (1, 3) = some ((true, some 7), [2]) ∧ Agreeing moved := by
  obtain ⟨m, hm, h⟩ := exists_of_yields (x := threeTriangles.result)
    (p := fun m => decide (1 < (m.insertFeatureEdge 1 3 (some 7)).1.vertices.size) &&
      yields ((m.insertFeatureEdge 1 3 (some 7)).1.setCorner 2 2 1) fun moved =>
        moved.deriveTopology.toBool && yields moved.updateEdges fun m' =>
          decide (m'.described? (1, 3) = some ((true, some 7), [2]))) (by decide +kernel)
  obtain ⟨hlt, h⟩ := Bool.and_eq_true_iff.mp h
  obtain ⟨moved, hmoved, h⟩ := exists_of_yields h
  obtain ⟨hderive, h⟩ := Bool.and_eq_true_iff.mp h
  obtain ⟨m', hm', h⟩ := exists_of_yields h
  cases hd : moved.deriveTopology with
  | error stopped =>
    rw [hd] at hderive
    cases hderive
  | ok d =>
    exact ⟨m, moved, m', d, hm, hmoved, hm', hd, of_decide_eq_true h, agreeing_of_reworked
      (.setCorner (.insertFeatureEdge 1 3 (some 7) (.obtained (.ofTriangles hm)))
        (of_decide_eq_true hlt) hmoved)⟩

end Mesh
end DiskCut
