import DiskCut.Proofs.Distance.Exact

/-!
# Distances with a cap

A search with a cap leaves out the paths that are longer, and loses no shorter one with them: no
part of an allowed path is longer than the path.

* `Reaches.uncapped`, `Reaches.capped`   paths of the two searches
* `Nearest.truncated`       what the cap makes of a distance
* `distancesFrom_capped`    the field with a cap is the field without one, cut off there
-/

namespace DiskCut
open Std
variable {α : Type} [Scalar α] [Extended α]

section
variable {R : VertexId → VertexId → α → Prop} {S : VertexId → Prop} {v : VertexId}
  {d d' limit : α}

theorem Reaches.uncapped (h : Reaches R (some limit) S v d) : Reaches R none S v d := by
  induction h with
  | source hv => exact .source hv
  | extend _ hroad _ hfinite ih => exact ih.extend hroad rfl hfinite

/-- what is attained at no source is not beyond the cap -/
theorem Reaches.not_lt (h : Reaches R (some limit) S v d) (hv : ¬ S v) : ¬ limit < d := by
  cases h with
  | source hS => exact absurd hS hv
  | extend _ _ hwithin _ => exact of_decide_eq_false hwithin

variable [LawfulLengths α]

/-- a path that is not beyond the cap has no part that is -/
theorem Reaches.capped (measured : Measured R) (h : Reaches R none S v d)
    (within : ¬ limit < d) : Reaches R (some limit) S v d := by
  induction h with
  | source hv => exact .source hv
  | @extend u w d l hu hroad _ hfinite ih =>
    have hd := hu.isLength measured
    have hl := measured.isLength hroad hfinite
    have hgrow := LawfulLengths.noMore_add hd hl
    refine (ih fun hlt => within ?_).extend hroad (decide_eq_false within) hfinite
    exact LawfulLengths.lt_of_lt_of_noMore hd (hd.add hl) hlt hgrow

/-- away from the sources the cap makes infinite what is beyond it, and changes nothing else -/
theorem Nearest.truncated (measured : Measured R) (h : Nearest R none S v d)
    (h' : Nearest R (some limit) S v d') (hv : ¬ S v) :
    d' = if limit < d then Extended.infinity else d := by
  split
  · rename_i hbeyond
    refine h'.attained.resolve_right fun hreach => hreach.not_lt hv ?_
    exact LawfulLengths.lt_of_lt_of_noMore (h.isLength measured) (h'.isLength measured) hbeyond
      (h.least d' hreach.uncapped)
  · rename_i hwithin
    refine h'.unique measured ⟨fun x hx => h.least x hx.uncapped, ?_⟩
    exact h.attained.imp id fun hreach => hreach.capped measured hwithin

theorem Nearest.source (measured : Measured R) {cap : Option α} (h : Nearest R cap S v d)
    (hv : S v) : d = 0.0 :=
  (h.least _ (.source hv)).antisymm (h.isLength measured).zero_noMore

end

namespace Mesh

theorem EdgeGraph.distancesFrom_truncated [LawfulLengths α] {m : Mesh α} (h : m.EdgeGraph)
    (sources : List VertexId) (limit : α) :
    ∃ f g, m.distancesFrom sources none = .ok f ∧ m.distancesFrom sources (some limit) = .ok g ∧
      g.distances.size = f.distances.size ∧ f.distances.size = m.vertices.size ∧
      g.numSources = f.numSources ∧ ∀ v < m.vertices.size, ∃ d, f.distance v = .ok d ∧
        g.distance v = .ok (if v ∈ sources then 0.0
          else if limit < d then Extended.infinity else d) ∧ (v ∈ sources → d = 0.0) := by
  obtain ⟨f, hf, hsize, hcount, hnear⟩ := h.distancesFrom_nearest sources none
  obtain ⟨g, hg, hsize', hcount', hnear'⟩ := h.distancesFrom_nearest sources (some limit)
  refine ⟨f, g, hf, hg, hsize'.trans hsize.symm, hsize, hcount'.trans hcount.symm, fun v hv => ?_⟩
  obtain ⟨d, hd, hleast⟩ := hnear v hv
  obtain ⟨d', hd', hleast'⟩ := hnear' v hv
  have measured := measured_road m
  by_cases hsource : v ∈ sources
  · have hin := mem_sourcesIn.mpr ⟨hsource, hv⟩
    refine ⟨d, hd, ?_, fun _ => hleast.source measured hin⟩
    rw [if_pos hsource, hd', hleast'.source measured hin]
  · have hout : v ∉ m.sourcesIn sources := fun hin => hsource (mem_sourcesIn.mp hin).1
    refine ⟨d, hd, ?_, fun hin => absurd hin hsource⟩
    rw [if_neg hsource, hd', hleast.truncated measured hleast' hout]

/-- with a cap, whatever it is, sources are at distance zero, and every other vertex is as far as
without the cap, or infinitely far when that is beyond the cap; a cap that is not a number changes
nothing -/
theorem distancesFrom_capped {m : Mesh Float} (valid : m.Valid) (sources : List VertexId)
    (limit : Float) :
    ∃ f g, m.distancesFrom sources none = .ok f ∧ m.distancesFrom sources (some limit) = .ok g ∧
      g.numSources = f.numSources ∧ (∀ v < m.vertices.size, ∃ d, f.distance v = .ok d ∧
        g.distance v = .ok (if v ∈ sources then 0.0
          else if limit < d then Extended.infinity else d)) ∧
      (limit.isNaN = true → g = f) := by
  obtain ⟨f, g, hf, hg, hsize, hsize', hcount, hall⟩ :=
    valid.edgeGraph.distancesFrom_truncated sources limit
  refine ⟨f, g, hf, hg, hcount, fun v hv => ?_, fun hnan => ?_⟩
  · obtain ⟨d, hd, hd', _⟩ := hall v hv
    exact ⟨d, hd, hd'⟩
  · refine DistanceField.eq_of_distance hsize hcount fun v hv => ?_
    obtain ⟨d, hd, hd', hzero⟩ := hall v (hsize' ▸ hv)
    rw [hd, hd', if_neg (Binary64.not_lt_of_isNaN hnan d)]
    split
    · rename_i hsource
      rw [hzero hsource]
    · rfl

theorem capped_threeTriangles : ∃ m f g, threeTriangles.result = .ok m ∧ m.Valid ∧
    m.distancesFrom [1] none = .ok f ∧ m.distancesFrom [1] (some 1.5) = .ok g ∧
    ∀ v < 5, ∃ d, f.distance v = .ok d ∧ g.distance v = .ok (if v = 1 then 0.0
      else if 1.5 < d then Extended.infinity else d) := by
  obtain ⟨m, hm, valid, hsize⟩ := exists_valid_threeTriangles
  obtain ⟨f, g, hf, hg, _, hall, _⟩ := distancesFrom_capped valid [1] 1.5
  simp only [hsize, List.mem_singleton] at hall
  exact ⟨m, f, g, hm, valid, hf, hg, hall⟩

end Mesh
end DiskCut
