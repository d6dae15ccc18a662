import DiskCut.Proofs.Binary64.Lengths
import DiskCut.Proofs.Distance.Nearest
import DiskCut.Proofs.ValidMeshes

/-!
# Shortest routes

The distance that the search finds is told without the search: it is the least total of a route.

* `Route R u ls v`      roads with the lengths `ls` lead from `u` to `v`
* `total ls`            the lengths added up from the first one on
* `Shortest R S v d`    `d` is the least total of a route from `S` to `v`, infinite without a route
* `Nearest.shortest`    the value that the search attains is such a least total
* `Shortest.step`       so it grows by no more than the length of a road along that road
* `SameRoads m m'`      the meshes have their vertices in the same places and join the same ones
* `distancesFrom_exact` distances without a cap are the least totals of routes from the sources

A route may add up to infinity although all its roads are finite.  The search does not follow it so
far, and need not: the vertex is at infinity then, or is reached by a shorter route.
-/

namespace DiskCut
open Std Finset
variable {α : Type} [Scalar α] [Extended α]

/-! ## routes -/

/-- roads of `R` with the lengths `ls` lead from `u` to a vertex -/
inductive Route (R : VertexId → VertexId → α → Prop) (u : VertexId) :
    List α → VertexId → Prop
  | nil : Route R u [] u
  | concat {ls : List α} {v w : VertexId} {l : α} : Route R u ls v → R v w l →
      Route R u (ls ++ [l]) w

/-- the lengths added up from the first one on -/
def total (ls : List α) : α := ls.foldl (· + ·) 0.0

/-- the roads with a finite length -/
def FiniteRoad (R : VertexId → VertexId → α → Prop) (u w : VertexId) (l : α) : Prop :=
  R u w l ∧ Extended.isFinite l = true

/-- `d` is the least total of a route from a vertex in `S` to `v`, infinite when there is none -/
structure Shortest (R : VertexId → VertexId → α → Prop) (S : VertexId → Prop) (v : VertexId)
    (d : α) : Prop where
  least : ∀ u ls, S u → Route R u ls v → NoMore d (total ls)
  attained : (∃ u ls, S u ∧ Route R u ls v ∧ total ls = d) ∨
    d = Extended.infinity ∧ ∀ u ls, S u → ¬ Route R u ls v

omit [Extended α] in
theorem total_concat (ls : List α) (l : α) : total (ls ++ [l]) = total ls + l :=
  List.foldl_concat ..

theorem Shortest.unique {R : VertexId → VertexId → α → Prop} {S : VertexId → Prop} {v : VertexId}
    {d d' : α} (h : Shortest R S v d) (h' : Shortest R S v d') : d = d' := by
  rcases h.attained with ⟨u, ls, hu, hroute, rfl⟩ | ⟨rfl, hnone⟩
  · rcases h'.attained with ⟨u', ls', hu', hroute', rfl⟩ | ⟨_, hnone'⟩
    · exact (h.least u' ls' hu' hroute').antisymm (h'.least u ls hu hroute)
    · exact absurd hroute (hnone' u ls hu)
  · rcases h'.attained with ⟨u', ls', hu', hroute', _⟩ | ⟨rfl, _⟩
    · exact absurd hroute' (hnone u' ls' hu')
    · rfl

section
variable [FiniteLengths α] {R : VertexId → VertexId → α → Prop} {S : VertexId → Prop}
  {u v w : VertexId} {d d' l : α} {ls : List α}
  (norms : ∀ u w l, R u w l → ∃ p : Vec3 α, p.norm = l)
include norms

theorem FiniteRoad.isLength (hroad : FiniteRoad R u w l) : IsLength l := by
  obtain ⟨hroad, hfinite⟩ := hroad
  obtain ⟨p, rfl⟩ := norms u w l hroad
  exact FiniteLengths.isLength_norm hfinite

theorem Route.isLength_total (hroute : Route (FiniteRoad R) u ls v) : IsLength (total ls) := by
  induction hroute with
  | nil => exact isLength_zero
  | concat _ hroad ih =>
    rw [total_concat]
    exact ih.add (hroad.isLength norms)

/-- the search follows a route as long as it does not add up to infinity -/
theorem Route.reaches (hu : S u) (hroute : Route (FiniteRoad R) u ls v) :
    Reaches R none S v (total ls) ∨ total ls = Extended.infinity := by
  induction hroute with
  | nil => exact .inl (.source hu)
  | @concat ls v w l hroute hroad ih =>
    have hls := hroute.isLength_total norms
    have hl := hroad.isLength norms
    rw [total_concat]
    by_cases hfinite : total ls + l < Extended.infinity
    · refine .inl (.extend (ih.resolve_right fun hinf => ?_) hroad.1 rfl hfinite)
      have hgrow := LawfulLengths.noMore_add hls hl
      rw [hinf] at hgrow hfinite
      exact (isLength_infinity.add hl).not_noMore_of_lt isLength_infinity hfinite hgrow
    · have hinf := (hls.add hl).noMore_of_not_lt isLength_infinity hfinite
      exact .inr ((hls.add hl).noMore_infinity.antisymm hinf)

/-- a value that the search attains is the total of a route along finite roads -/
theorem Reaches.exists_route (hreach : Reaches R none S v d) :
    ∃ u ls, S u ∧ Route (FiniteRoad R) u ls v ∧ total ls = d := by
  induction hreach with
  | source hv => exact ⟨_, [], hv, .nil, rfl⟩
  | @extend u w d l hu hroad _ hfinite ih =>
    obtain ⟨u, ls, hu', hroute, rfl⟩ := ih
    have measured := measured_of_norms norms
    have hl := measured.isLength hroad hfinite
    have hd := hu.isLength measured
    have hless := hl.lt_of_noMore_of_lt (hd.add hl) isLength_infinity
      (FiniteLengths.noMore_add_left hd hl) hfinite
    exact ⟨u, ls ++ [l], hu',
      hroute.concat ⟨hroad, (FiniteLengths.isFinite_iff hl).mpr hless⟩, total_concat ls l⟩

/-- the nearest source is at the end of a shortest route -/
theorem Nearest.shortest (h : Nearest R none S v d) : Shortest (FiniteRoad R) S v d where
  least := by
    intro u ls hu hroute
    rcases hroute.reaches norms hu with hreach | hinf
    · exact h.least _ hreach
    · rw [hinf]
      exact (h.isLength (measured_of_norms norms)).noMore_infinity
  attained := by
    rcases h.attained with rfl | hreach
    · by_cases hsome : ∃ u ls, S u ∧ Route (FiniteRoad R) u ls v
      · obtain ⟨u, ls, hu, hroute⟩ := hsome
        refine .inl ⟨u, ls, hu, hroute, (hroute.reaches norms hu).elim (fun hreach => ?_) id⟩
        exact (hreach.isLength (measured_of_norms norms)).noMore_infinity.antisymm
          (h.least _ hreach)
      · exact .inr ⟨rfl, fun u ls hu hroute => hsome ⟨u, ls, hu, hroute⟩⟩
    · exact .inl (hreach.exists_route norms)

/-- a road of finite length leads no farther than it is long -/
theorem Shortest.step (h : Shortest (FiniteRoad R) S u d) (h' : Shortest (FiniteRoad R) S w d')
    (hd' : IsLength d') (hroad : FiniteRoad R u w l) : NoMore d' (d + l) := by
  rcases h.attained with ⟨x, ls, hx, hroute, rfl⟩ | ⟨rfl, _⟩
  · rw [← total_concat]
    exact h'.least x _ hx (hroute.concat hroad)
  · exact hd'.noMore_infinity.trans
      (LawfulLengths.noMore_add isLength_infinity (hroad.isLength norms))

end

/-! ## on a mesh -/

omit [Scalar α] [Extended α] in
/-- a field is told by its distances and the number of its sources -/
theorem DistanceField.eq_of_distance {f f' : DistanceField α}
    (hsize : f'.distances.size = f.distances.size) (hcount : f'.numSources = f.numSources)
    (h : ∀ v < f.distances.size, f'.distance v = f.distance v) : f' = f := by
  have hdistances : f'.distances = f.distances := by
    refine Array.ext hsize fun v hv' hv => ?_
    have hv := h v (hsize ▸ hv')
    unfold DistanceField.distance at hv
    rw [fetch_of_lt hv', fetch_of_lt (hsize ▸ hv')] at hv
    exact Except.ok.inj hv
  cases f
  cases f'
  exact congrArg₂ DistanceField.mk hdistances hcount

namespace Mesh

omit [Extended α] in
theorem Valid.edgeGraph {m : Mesh α} (h : m.Valid) : m.EdgeGraph := ⟨h.ends_lt, h.lt_of_isEnd⟩

/-- the meshes have their vertices in the same places, and their edges join the same ones -/
structure SameRoads (m m' : Mesh α) : Prop where
  size : m'.vertices.size = m.vertices.size
  position : ∀ v, m'.position v = m.position v
  joins : ∀ u w, (∃ e, m'.Joins e u w) ↔ ∃ e, m.Joins e u w

/-- the field holds for each vertex the least total of a route from the sources along edges of finite
length -/
structure Exact (m : Mesh α) (sources : List VertexId) (f : DistanceField α) : Prop where
  size : f.distances.size = m.vertices.size
  numSources : f.numSources = #{v ∈ sources.toFinset | v < m.vertices.size}
  shortest : ∀ v < m.vertices.size, ∃ d, f.distance v = .ok d ∧ IsLength d ∧
    Shortest (FiniteRoad m.Road) (fun u => u ∈ sources ∧ u < m.vertices.size) v d

section
variable {m m' : Mesh α} {sources sources' : List VertexId} {f f' : DistanceField α}
  {u v w : VertexId} {l d d' : α}

omit [Extended α] in
/-- a road is as long as its ends are apart, whichever edge it is -/
theorem road_iff : m.Road u w l ↔ (∃ e, m.Joins e u w) ∧ ∃ p q,
    m.position (edgeKey u w).2 = .ok q ∧ m.position (edgeKey u w).1 = .ok p ∧ l = (q - p).norm := by
  refine ⟨?_, ?_⟩
  · rintro ⟨e, ⟨x, hx, hends⟩, hl⟩
    obtain ⟨y, p, q, hy, hq, hp, hl⟩ := edgeLength_eq_ok_iff.mp hl
    rw [hx] at hy
    obtain rfl := Option.some.inj hy
    rw [hends] at hq hp
    exact ⟨⟨e, x, hx, hends⟩, p, q, hq, hp, hl⟩
  · rintro ⟨⟨e, x, hx, hends⟩, p, q, hq, hp, hl⟩
    rw [← hends] at hq hp
    exact ⟨e, ⟨x, hx, hends⟩, edgeLength_eq_ok_iff.mpr ⟨x, p, q, hx, hq, hp, hl⟩⟩

omit [Extended α] in
theorem SameRoads.road_eq (h : SameRoads m m') : m'.Road = m.Road := by
  funext u w l
  simp only [road_iff, h.joins, h.position]

omit [Scalar α] [Extended α] in
theorem length_sourcesIn :
    (m.sourcesIn sources).length = #{v ∈ sources.toFinset | v < m.vertices.size} := by
  have hnodup : (m.sourcesIn sources).Nodup := nodup_toList _
  rw [← List.toFinset_card_of_nodup hnodup]
  congr 1
  ext v
  rw [List.mem_toFinset, mem_filter, List.mem_toFinset]
  exact mem_sourcesIn

variable [FiniteLengths α]

theorem EdgeGraph.distancesFrom_shortest (h : m.EdgeGraph) (sources : List VertexId) :
    ∃ f, m.distancesFrom sources none = .ok f ∧ m.Exact sources f := by
  obtain ⟨f, hf, hsize, hcount, hnear⟩ := h.distancesFrom_nearest sources none
  refine ⟨f, hf, hsize, hcount.trans length_sourcesIn, fun v hv => ?_⟩
  obtain ⟨d, hd, hleast⟩ := hnear v hv
  have hsources : (· ∈ m.sourcesIn sources) = fun u => u ∈ sources ∧ u < m.vertices.size :=
    funext fun u => propext mem_sourcesIn
  rw [hsources] at hleast
  exact ⟨d, hd, hleast.isLength (measured_road m), hleast.shortest road_norm⟩

omit [FiniteLengths α] in
/-- there is one such field, and it is told by the places of the vertices, the pairs that edges join
and the set of sources -/
theorem Exact.unique (hroads : SameRoads m m')
    (hsources : ∀ v < m.vertices.size, v ∈ sources' ↔ v ∈ sources) (h : m.Exact sources f)
    (h' : m'.Exact sources' f') : f' = f := by
  have hsame : (fun u => u ∈ sources' ∧ u < m'.vertices.size)
      = fun u => u ∈ sources ∧ u < m.vertices.size := by
    funext u
    rw [hroads.size]
    exact propext (and_congr_left fun hu => hsources u hu)
  refine DistanceField.eq_of_distance (h'.size.trans (hroads.size.trans h.size.symm)) ?_
    fun v hv => ?_
  · rw [h'.numSources, h.numSources]
    congr 1
    ext v
    have hv := congrFun hsame v
    rw [mem_filter, mem_filter, List.mem_toFinset, List.mem_toFinset]
    exact Eq.to_iff hv
  · rw [h.size] at hv
    obtain ⟨d, hd, _, hshort⟩ := h.shortest v hv
    obtain ⟨d', hd', _, hshort'⟩ := h'.shortest v (hroads.size ▸ hv)
    rw [hsame, hroads.road_eq] at hshort'
    rw [hd, hd', hshort.unique hshort']

omit [FiniteLengths α] in
theorem Exact.exists_distance (h : m.Exact sources f) (hd : f.distance v = .ok d) :
    v < m.vertices.size ∧ IsLength d ∧
      Shortest (FiniteRoad m.Road) (fun u => u ∈ sources ∧ u < m.vertices.size) v d := by
  have hlt : v < m.vertices.size := by
    rw [← h.size]
    exact (Array.getElem?_eq_some_iff.mp (fetch_eq_ok_iff.mp hd)).1
  obtain ⟨d', hd', hshort⟩ := h.shortest v hlt
  rw [hd] at hd'
  exact ⟨hlt, Except.ok.inj hd' ▸ hshort⟩

omit [FiniteLengths α] in
/-- sources are at distance zero -/
theorem Exact.distance_source (h : m.Exact sources f) (hv : v ∈ sources)
    (hlt : v < m.vertices.size) : f.distance v = .ok 0.0 := by
  obtain ⟨d, hd, hlength, hshort⟩ := h.shortest v hlt
  have hzero : d = 0.0 := (hshort.least v [] ⟨hv, hlt⟩ .nil).antisymm hlength.zero_noMore
  rw [hd, hzero]

end

/-- distances on a valid mesh are found, each the least total of a route from the sources that are
vertices; a road of finite length leads no farther than it is long; and the same places, pairs and
sources in any order give the same field -/
theorem distancesFrom_exact {m : Mesh Float} (valid : m.Valid) (sources : List VertexId) :
    ∃ f, m.distancesFrom sources none = .ok f ∧ m.Exact sources f ∧
      (∀ v d, f.distance v = .ok d → d.isNaN = false ∧ ¬ d < 0.0) ∧
      (∀ v ∈ sources, v < m.vertices.size → f.distance v = .ok 0.0) ∧
      (∀ u v l, m.Road u v l → l.isFinite = true →
        ∃ d d', f.distance u = .ok d ∧ f.distance v = .ok d' ∧ NoMore d' (d + l)) ∧
      ∀ m' sources', m'.Valid → SameRoads m m' →
        (∀ v < m.vertices.size, v ∈ sources' ↔ v ∈ sources) →
        m'.distancesFrom sources' none = .ok f := by
  obtain ⟨f, hf, hexact⟩ := valid.edgeGraph.distancesFrom_shortest sources
  refine ⟨f, hf, hexact, fun v d hd => ?_, fun v hv => hexact.distance_source hv, ?_, ?_⟩
  · exact Binary64.isNaN_of_isLength (hexact.exists_distance hd).2.1
  · intro u v l hroad hfinite
    obtain ⟨e, hjoin, _⟩ := id hroad
    obtain ⟨d, hd, _, hshort⟩ := hexact.shortest u (valid.lt_of_isEnd hjoin.isEnd_left)
    obtain ⟨d', hd', hlength, hshort'⟩ := hexact.shortest v (valid.lt_of_isEnd hjoin.isEnd_right)
    exact ⟨d, d', hd, hd', hshort.step road_norm hshort' hlength ⟨hroad, hfinite⟩⟩
  · intro m' sources' valid' hroads hsources
    obtain ⟨f', hf', hexact'⟩ := valid'.edgeGraph.distancesFrom_shortest sources'
    rw [hf', hexact.unique hroads hsources hexact']

theorem exact_threeTriangles : ∃ m f, threeTriangles.result = .ok m ∧ m.Valid ∧
    m.distancesFrom [4, 9, 1] none = .ok f ∧ m.Exact [4, 9, 1] f ∧
    m.distancesFrom [1, 4, 4, 17] none = .ok f := by
  obtain ⟨m, hm, valid, hsize⟩ := exists_valid_threeTriangles
  obtain ⟨f, hf, hexact, _, _, _, hsame⟩ := distancesFrom_exact valid [4, 9, 1]
  refine ⟨m, f, hm, valid, hf, hexact, hsame m _ valid ⟨rfl, fun _ => rfl, fun _ _ => .rfl⟩ ?_⟩
  rw [hsize]
  decide

end Mesh
end DiskCut
