import DiskCut.Proofs.FeatureCut.Fan
import Mathlib.Data.Finset.Card
import Mathlib.Data.Finset.Range

/-!
# Walking through a fan

A walk at vertex `v` starts with one triangle and goes on across plain edges at `v`.

* `Flood.Grows`    further triangles beside a visited one are reached and wait on the stack
* `Flooding`       what holds while the walk goes on: a triangle is either visited, with its corner
                   moved and all triangles beside it reached, or it waits
* `Flooded`        what holds at the end: exactly the fan is moved
* `flood_spec`     a walk ends, and so it is flooded then

A corner that is reached stays reached, so each step lowers `Flood.weight`.
-/

namespace DiskCut
open Std
namespace Mesh
variable {α : Type} {m : Mesh α} {e : EdgeId} {t u : TriangleId} {v target : VertexId}

/-! ## reaching triangles -/

/-- the number of triangles that wait or whose corner at `v` is not reached -/
def Flood.weight (m : Mesh α) (v : VertexId) (s : Flood) : Nat :=
  s.stack.length + ((Finset.range m.triangles.size).filter fun t => (t, v) ∉ s.reached).card

/-- `s'` is `s` with triangles beside `t` reached and put on the stack -/
structure Flood.Grows (m : Mesh α) (v : VertexId) (t : TriangleId) (s s' : Flood) : Prop where
  triangles : s'.triangles = s.triangles
  mono : ∀ c ∈ s.reached, c ∈ s'.reached
  only : ∀ c ∈ s'.reached, c ∈ s.reached ∨ c.2 = v ∧ m.Beside v t c.1
  stack : ∀ u, u ∈ s'.stack ↔ u ∈ s.stack ∨ (u, v) ∈ s'.reached ∧ (u, v) ∉ s.reached
  nodup : (∀ u ∈ s.stack, (u, v) ∈ s.reached) → s.stack.Nodup → s'.stack.Nodup
  weight : s'.weight m v ≤ s.weight m v

section
variable {s s' s'' : Flood}

theorem Flood.Grows.refl : Flood.Grows m v t s s where
  triangles := rfl
  mono := fun _ hc => hc
  only := fun _ hc => .inl hc
  stack := fun _ => ⟨.inl, fun hu => hu.resolve_right fun h => h.2 h.1⟩
  nodup := fun _ h => h
  weight := Nat.le_refl _

theorem Flood.Grows.trans (h : Flood.Grows m v t s s') (h' : Flood.Grows m v t s' s'') :
    Flood.Grows m v t s s'' where
  triangles := h'.triangles.trans h.triangles
  mono := fun c hc => h'.mono c (h.mono c hc)
  only := by
    intro c hc
    rcases h'.only c hc with hc | hc
    · exact h.only c hc
    · exact .inr hc
  stack := by
    intro u
    rw [h'.stack, h.stack]
    refine ⟨?_, ?_⟩
    · intro hu
      rcases hu with (hu | ⟨hu, hno⟩) | ⟨hu, hno⟩
      · exact .inl hu
      · exact .inr ⟨h'.mono _ hu, hno⟩
      · exact .inr ⟨hu, fun hold => hno (h.mono _ hold)⟩
    · intro hu
      rcases hu with hu | ⟨hu, hno⟩
      · exact .inl (.inl hu)
      · by_cases hmid : (u, v) ∈ s'.reached
        · exact .inl (.inr ⟨hmid, hno⟩)
        · exact .inr ⟨hu, hmid⟩
  nodup := by
    intro hreached hnodup
    refine h'.nodup (fun u hu => ?_) (h.nodup hreached hnodup)
    rcases (h.stack u).mp hu with hu | hu
    · exact h.mono _ (hreached u hu)
    · exact hu.1
  weight := Nat.le_trans h'.weight h.weight

theorem mem_insert_corner {r : ExtTreeSet Corner pairOrder} {c d : Corner} :
    d ∈ r.insert c ↔ c = d ∨ d ∈ r := by
  rw [ExtTreeSet.mem_insert, pairOrder_eq_iff]

/-- one triangle beside `t` reached -/
theorem Flood.grows_reach (beside : m.Beside v t u) (hu : u < m.triangles.size) (s : Flood) :
    Flood.Grows m v t s (Flood.reach v s u) ∧ (u, v) ∈ (Flood.reach v s u).reached := by
  unfold Flood.reach
  split
  · rename_i hmem
    exact ⟨.refl, ExtTreeSet.mem_iff_contains.mpr hmem⟩
  · rename_i hmem
    have hno : (u, v) ∉ s.reached := fun h => hmem (ExtTreeSet.mem_iff_contains.mp h)
    refine ⟨⟨rfl, ?_, ?_, ?_, ?_, ?_⟩, mem_insert_corner.mpr (.inl rfl)⟩
    · exact fun c hc => mem_insert_corner.mpr (.inr hc)
    · intro c hc
      rcases mem_insert_corner.mp hc with rfl | hc
      · exact .inr ⟨rfl, beside⟩
      · exact .inl hc
    · intro w
      rw [List.mem_cons, mem_insert_corner, Prod.mk.injEq]
      refine ⟨?_, ?_⟩
      · intro hw
        rcases hw with rfl | hw
        · exact .inr ⟨.inl ⟨rfl, rfl⟩, hno⟩
        · exact .inl hw
      · intro hw
        rcases hw with hw | ⟨⟨rfl, _⟩ | hw, hno'⟩
        · exact .inr hw
        · exact .inl rfl
        · exact absurd hw hno'
    · intro hreached hnodup
      exact List.nodup_cons.mpr ⟨fun hmem => hno (hreached u hmem), hnodup⟩
    · have herase : ((Finset.range m.triangles.size).filter
          fun t => (t, v) ∉ s.reached.insert (u, v))
            = ((Finset.range m.triangles.size).filter fun t => (t, v) ∉ s.reached).erase u := by
        ext w
        simp only [Finset.mem_filter, Finset.mem_erase, mem_insert_corner, Prod.mk.injEq]
        grind
      have hmem' : u ∈ (Finset.range m.triangles.size).filter fun t => (t, v) ∉ s.reached :=
        Finset.mem_filter.mpr ⟨Finset.mem_range.mpr hu, hno⟩
      have hcard := Finset.card_erase_add_one hmem'
      simp only [Flood.weight, herase, List.length_cons]
      omega

/-- several triangles beside `t` reached -/
theorem Flood.grows_foldl (us : List TriangleId)
    (beside : ∀ u ∈ us, m.Beside v t u ∧ u < m.triangles.size) (s : Flood) :
    Flood.Grows m v t s (us.foldl (Flood.reach v) s) ∧
      ∀ u ∈ us, (u, v) ∈ (us.foldl (Flood.reach v) s).reached := by
  induction us generalizing s with
  | nil => exact ⟨.refl, by simp⟩
  | cons u us ih =>
    obtain ⟨hbeside, hu⟩ := beside u List.mem_cons_self
    obtain ⟨hgrow, hmem⟩ := grows_reach hbeside hu s
    obtain ⟨hgrow', hmem'⟩ := ih (fun w hw => beside w (List.mem_cons_of_mem _ hw))
      (Flood.reach v s u)
    refine ⟨hgrow.trans hgrow', fun w hw => ?_⟩
    rcases List.mem_cons.mp hw with rfl | hw
    · exact hgrow'.mono _ hmem
    · exact hmem' w hw

/-- the walk goes on across one edge -/
theorem Fitted.cross (h : m.Fitted) (hreached : (t, v) ∈ s.reached) (hend : m.IsEnd e v)
    (ht : m.Incident e t) :
    ∃ s', Flood.cross m v t s e = .ok s' ∧ Flood.Grows m v t s s' ∧
      (m.IsPlain e → ∀ u, m.Incident e u → (u, v) ∈ s'.reached) := by
  have he := hend.lt_size
  rcases isPlain_or_isFeature he with hplain | hfeature
  · obtain ⟨ts, hts, hmem⟩ := h.trianglesAt_ok he
    obtain ⟨hgrow, hall⟩ := Flood.grows_foldl (m := m) (v := v) (t := t) (ts.filter (· != t)) (by
      intro u hu
      have hu := (hmem u).mp (List.mem_filter.mp hu).1
      exact ⟨⟨e, hplain, hend, ht, hu⟩, h.lt_of_incident hu⟩) s
    refine ⟨_, ?_, hgrow, fun _ u hu => ?_⟩
    · unfold Flood.cross
      rw [isFeatureEdge_of_isPlain hplain, hts]
      rfl
    · by_cases hut : u = t
      · rw [hut]
        exact hgrow.mono _ hreached
      · exact hall u (List.mem_filter.mpr ⟨(hmem u).mpr hu, by simpa using hut⟩)
  · refine ⟨s, ?_, .refl, fun hplain => absurd hfeature hplain.not_isFeature⟩
    unfold Flood.cross
    rw [isFeatureEdge_of_isFeature hfeature]
    rfl

end

/-! ## the walk -/

/-- triangle `u` is done: its corner at `v` was reached in this walk, and it no longer waits -/
def Flood.Visited (before : ExtTreeSet Corner pairOrder) (v : VertexId) (s : Flood)
    (u : TriangleId) : Prop :=
  (u, v) ∈ s.reached ∧ (u, v) ∉ before ∧ u ∉ s.stack

/-- a walk from triangle `seed` at `v` to the vertex `target`, begun when the corners `before` were
reached and the triangles had the corners `corners` -/
structure Flooding (m : Mesh α) (v target : VertexId) (before : ExtTreeSet Corner pairOrder)
    (corners : Array (Triple VertexId)) (seed : TriangleId) (s : Flood) : Prop where
  mono : ∀ c ∈ before, c ∈ s.reached
  only : ∀ c ∈ s.reached, c ∈ before ∨ c.2 = v ∧ m.SameFan v seed c.1
  seed : (seed, v) ∈ s.reached
  waits : ∀ u ∈ s.stack, (u, v) ∈ s.reached ∧ (u, v) ∉ before
  nodup : s.stack.Nodup
  spread : ∀ t u, s.Visited before v t → m.Beside v t u → (u, v) ∈ s.reached
  size : s.triangles.size = m.triangles.size
  moved : ∀ u, s.Visited before v u → m.cornerIn s.triangles u v = some target
  kept : ∀ u w, ¬ (w = v ∧ s.Visited before v u) →
    m.cornerIn s.triangles u w = m.cornerIn corners u w

section
variable {before : ExtTreeSet Corner pairOrder} {corners : Array (Triple VertexId)}
  {seed : TriangleId} {s s' : Flood}

theorem Flood.Grows.visited_iff (h : Flood.Grows m v t s s') :
    s'.Visited before v u ↔ s.Visited before v u := by
  unfold Flood.Visited
  rw [h.stack]
  refine ⟨?_, ?_⟩
  · intro ⟨hu, hnew, hwait⟩
    by_cases hold : (u, v) ∈ s.reached
    · exact ⟨hold, hnew, fun hs => hwait (.inl hs)⟩
    · exact absurd (.inr ⟨hu, hold⟩) hwait
  · intro ⟨hu, hnew, hwait⟩
    exact ⟨h.mono _ hu, hnew, fun hs => hs.elim hwait fun hs => hs.2 hu⟩

theorem Flooding.isCorner (h : m.Fitted) (hseed : m.IsCorner seed v)
    (hs : Flooding m v target before corners seed s) (hu : (u, v) ∈ s.reached)
    (hnew : (u, v) ∉ before) : m.IsCorner u v := by
  rcases hs.only _ hu with hold | ⟨_, hfan⟩
  · exact absurd hold hnew
  · exact h.isCorner_of_sameFan hseed hfan

theorem Flooding.sameFan (hs : Flooding m v target before corners seed s)
    (hu : (u, v) ∈ s.reached) (hnew : (u, v) ∉ before) : m.SameFan v seed u := by
  rcases hs.only _ hu with hold | ⟨_, hfan⟩
  · exact absurd hold hnew
  · exact hfan

/-- the first triangle that waits has its corner moved and waits no longer -/
theorem Flooding.visit {stack : List TriangleId} {vs : Triple VertexId} {k : Fin 3}
    (hs : Flooding m v target before corners seed s) (hstack : s.stack = t :: stack)
    (hvs : m.triangles[t]? = some vs) (hk : vs.place? v = some k) :
    let next : Flood := { s with stack, triangles := s.triangles.modify t (·.set k target) }
    (∀ u, next.Visited before v u ↔ s.Visited before v u ∨ u = t) ∧
      next.triangles.size = m.triangles.size ∧
      (∀ u, next.Visited before v u → m.cornerIn next.triangles u v = some target) ∧
      (∀ u w, ¬ (w = v ∧ next.Visited before v u) →
        m.cornerIn next.triangles u w = m.cornerIn corners u w) := by
  intro next
  have hnodup := hs.nodup
  rw [hstack, List.nodup_cons] at hnodup
  obtain ⟨ht, hnew⟩ := hs.waits t (by rw [hstack]; exact List.mem_cons_self)
  have hlt : t < s.triangles.size := by
    rw [hs.size]
    exact (Array.getElem?_eq_some_iff.mp hvs).1
  have hvisited : ∀ u, next.Visited before v u ↔ s.Visited before v u ∨ u = t := by
    intro u
    show (u, v) ∈ s.reached ∧ (u, v) ∉ before ∧ u ∉ stack ↔ _
    unfold Flood.Visited
    rw [hstack, List.mem_cons]
    by_cases hut : u = t
    · subst hut
      exact ⟨fun _ => .inr rfl, fun _ => ⟨ht, hnew, hnodup.1⟩⟩
    · simp only [hut, false_or, or_false]
  have hcorner := fun u w => cornerIn_modify hvs hk hlt target u w
  refine ⟨hvisited, ?_, ?_, ?_⟩
  · show (s.triangles.modify t _).size = _
    rw [Array.size_modify, hs.size]
  · intro u hu
    show m.cornerIn (s.triangles.modify t _) u v = _
    rw [hcorner]
    by_cases hut : u = t
    · rw [if_pos ⟨hut, rfl⟩]
    · rw [if_neg fun h => hut h.1]
      exact hs.moved u (((hvisited u).mp hu).resolve_right hut)
  · intro u w hu
    show m.cornerIn (s.triangles.modify t _) u w = _
    rw [hvisited] at hu
    rw [hcorner, if_neg fun h => hu ⟨h.2, .inr h.1⟩]
    exact hs.kept u w fun h => hu ⟨h.1, .inl h.2⟩

/-- the first triangle that waits is visited, and those beside it are reached -/
theorem Flooding.advance {next : Flood} {stack : List TriangleId} {vs : Triple VertexId} {k : Fin 3}
    (hs : Flooding m v target before corners seed s) (hstack : s.stack = t :: stack)
    (hvs : m.triangles[t]? = some vs) (hk : vs.place? v = some k)
    (hgrow : Flood.Grows m v t
      { s with stack, triangles := s.triangles.modify t (·.set k target) } next)
    (hall : ∀ u, m.Beside v t u → (u, v) ∈ next.reached) :
    Flooding m v target before corners seed next ∧ next.weight m v < s.weight m v := by
  obtain ⟨hvisited, hsize, hmoved, hkept⟩ := hs.visit hstack hvs hk
  have hwaits : ∀ u ∈ stack, (u, v) ∈ s.reached ∧ (u, v) ∉ before := fun u hu =>
    hs.waits u (by rw [hstack]; exact List.mem_cons_of_mem _ hu)
  obtain ⟨ht, hnew⟩ := hs.waits t (by rw [hstack]; exact List.mem_cons_self)
  refine ⟨?_, ?_⟩
  · exact {
      mono := fun c hc => hgrow.mono c (hs.mono c hc)
      only := by
        intro c hc
        rcases hgrow.only c hc with hc | ⟨hcv, hbeside⟩
        · exact hs.only c hc
        · exact .inr ⟨hcv, (hs.sameFan ht hnew).trans hbeside.sameFan⟩
      seed := hgrow.mono _ hs.seed
      waits := by
        intro u hu
        rcases (hgrow.stack u).mp hu with hu | ⟨hu, hno⟩
        · exact (hwaits u hu).imp_left (hgrow.mono _)
        · exact ⟨hu, fun hold => hno (hs.mono _ hold)⟩
      nodup := by
        have hnodup := hs.nodup
        rw [hstack, List.nodup_cons] at hnodup
        exact hgrow.nodup (fun u hu => (hwaits u hu).1) hnodup.2
      spread := by
        intro t' u ht' hbeside
        rcases (hvisited t').mp (hgrow.visited_iff.mp ht') with ht' | rfl
        · exact hgrow.mono _ (hs.spread t' u ht' hbeside)
        · exact hall u hbeside
      size := by
        rw [hgrow.triangles]
        exact hsize
      moved := by
        intro u hu
        rw [hgrow.triangles]
        exact hmoved u (hgrow.visited_iff.mp hu)
      kept := by
        intro u w hu
        rw [hgrow.triangles]
        exact hkept u w fun hw => hu ⟨hw.1, hgrow.visited_iff.mpr hw.2⟩ }
  · have hlt := hgrow.weight
    unfold Flood.weight at hlt ⊢
    rw [hstack, List.length_cons]
    simp only at hlt
    omega

/-- a step of the walk: nothing is left to do, or one triangle more is visited -/
theorem Flooding.step (h : m.Fitted) (hseed : m.IsCorner seed v)
    (hs : Flooding m v target before corners seed s) :
    (s.stack = [] ∧ Flood.step m v target s = .ok none) ∨
    ∃ next, Flood.step m v target s = .ok (some next) ∧
      Flooding m v target before corners seed next ∧ next.weight m v < s.weight m v := by
  rcases hstack : s.stack with _ | ⟨t, stack⟩
  · refine .inl ⟨rfl, ?_⟩
    unfold Flood.step
    rw [hstack]
  right
  obtain ⟨ht, hnew⟩ := hs.waits t (by rw [hstack]; exact List.mem_cons_self)
  obtain ⟨vs, hvs, k, rfl⟩ := hs.isCorner h hseed ht hnew
  obtain ⟨es, hes, _⟩ := h.adjacent.side hvs
  have hplace := Triple.place?_get (h.proper hvs) k
  have hlt : t < s.triangles.size := by
    rw [hs.size]
    exact (Array.getElem?_eq_some_iff.mp hvs).1
  -- the walk goes on across the two edges of `t` at its corner
  have hsides := fun e => h.mem_sides_at_corner (e := e) hvs hes k
  obtain ⟨hend₁, hinc₁⟩ := (hsides (es.get k)).mp (by simp)
  obtain ⟨hend₂, hinc₂⟩ := (hsides (es.get (k + 2))).mp (by simp)
  obtain ⟨s₁, hs₁, hgrow₁, hall₁⟩ := h.cross
    (s := { s with stack, triangles := s.triangles.modify t (·.set k target) }) ht hend₁ hinc₁
  obtain ⟨s₂, hs₂, hgrow₂, hall₂⟩ := h.cross (hgrow₁.mono _ ht) hend₂ hinc₂
  refine ⟨s₂, ?_, hs.advance hstack hvs hplace (hgrow₁.trans hgrow₂) fun u hbeside => ?_⟩
  · unfold Flood.step triangle sidesOf
    simp only [hstack, fetch_eq_ok_iff.mpr hvs, hplace, alter_of_lt hlt, fetch_eq_ok_iff.mpr hes,
      List.foldlM_cons, List.foldlM_nil, Triple.getBefore, hs₁, hs₂, bind, Except.bind, pure,
      Except.pure]
  · obtain ⟨e, he, hplain, hu⟩ := (h.beside_iff hvs hes).mp hbeside
    simp only [List.mem_cons, List.not_mem_nil, or_false] at he
    rcases he with rfl | rfl
    · exact hgrow₂.mono _ (hall₁ hplain u hu)
    · exact hall₂ hplain u hu

/-! ## the whole walk -/

/-- the corners of one fan moved to the vertex `target` -/
structure Flooded (m : Mesh α) (v target : VertexId) (before : ExtTreeSet Corner pairOrder)
    (corners : Array (Triple VertexId)) (seed : TriangleId) (s : Flood) : Prop where
  reached : ∀ c, c ∈ s.reached ↔ c ∈ before ∨ c.2 = v ∧ m.SameFan v seed c.1
  size : s.triangles.size = m.triangles.size
  moved : ∀ u, m.SameFan v seed u → m.cornerIn s.triangles u v = some target
  kept : ∀ u w, ¬ (w = v ∧ m.SameFan v seed u) →
    m.cornerIn s.triangles u w = m.cornerIn corners u w

/-- a walk with nothing left to do has visited exactly the fan, if fans were walked through as a
whole before -/
theorem Flooding.finish (hs : Flooding m v target before corners seed s) (hstack : s.stack = [])
    (closed : ∀ t u, (t, v) ∈ before → m.Beside v t u → (u, v) ∈ before)
    (hnew : (seed, v) ∉ before) : Flooded m v target before corners seed s := by
  have hnone : ∀ u, m.SameFan v seed u → (u, v) ∉ before := fun u hu hmem =>
    hnew (hu.symm.mem_of_closed (P := fun t => (t, v) ∈ before) closed hmem)
  have hall : ∀ u, m.SameFan v seed u → s.Visited before v u := by
    intro u hu
    refine ⟨?_, hnone u hu, by rw [hstack]; exact List.not_mem_nil⟩
    induction hu with
    | refl => exact hs.seed
    | tail hfan hbeside ih =>
      refine hs.spread _ _ ⟨ih, hnone _ hfan, ?_⟩ hbeside
      rw [hstack]
      exact List.not_mem_nil
  refine ⟨fun c => ⟨hs.only c, fun hc => ?_⟩, hs.size, fun u hu => hs.moved u (hall u hu), ?_⟩
  · rcases hc with hc | ⟨rfl, hfan⟩
    · exact hs.mono c hc
    · exact (hall c.1 hfan).1
  · intro u w hu
    exact hs.kept u w fun hw => hu ⟨hw.1, hs.sameFan hw.2.1 hw.2.2.1⟩

theorem Flooding.start (hnew : (seed, v) ∉ before) (size : corners.size = m.triangles.size) :
    Flooding m v target before corners seed ⟨[seed], before.insert (seed, v), corners⟩ := by
  have hnone : ∀ u, ¬ Flood.Visited before v ⟨[seed], before.insert (seed, v), corners⟩ u := by
    intro u ⟨hu, hold, hwait⟩
    rcases mem_insert_corner.mp hu with h | h
    · exact hwait (List.mem_singleton.mpr (Prod.mk.inj h).1.symm)
    · exact hold h
  exact {
    mono := fun c hc => mem_insert_corner.mpr (.inr hc)
    only := by
      intro c hc
      rcases mem_insert_corner.mp hc with rfl | hc
      · exact .inr ⟨rfl, .refl⟩
      · exact .inl hc
    seed := mem_insert_corner.mpr (.inl rfl)
    waits := by
      intro u hu
      obtain rfl := List.mem_singleton.mp hu
      exact ⟨mem_insert_corner.mpr (.inl rfl), hnew⟩
    nodup := List.nodup_singleton seed
    spread := fun t _ ht => absurd ht (hnone t)
    size := size
    moved := fun u hu => absurd hu (hnone u)
    kept := fun _ _ _ => rfl }

/-- a walk through a fan that no walk went through before ends, and moves exactly that fan -/
theorem flood_spec (h : m.Fitted) (target : VertexId) (hseed : m.IsCorner seed v)
    (hnew : (seed, v) ∉ before)
    (closed : ∀ t u, (t, v) ∈ before → m.Beside v t u → (u, v) ∈ before)
    (size : corners.size = m.triangles.size) :
    ∃ s, repeatWhile (Flood.step m v target) (m.triangles.size + 1)
        ⟨[seed], before.insert (seed, v), corners⟩ = .ok s ∧
      Flooded m v target before corners seed s := by
  have progress : ∀ n s, Flooding m v target before corners seed s ∧ s.weight m v = n →
      (s.stack = [] ∧ Flood.step m v target s = .ok none) ∨
        ∃ next k, Flood.step m v target s = .ok (some next) ∧ k < n ∧
          Flooding m v target before corners seed next ∧ next.weight m v = k := by
    rintro n s ⟨hs, rfl⟩
    rcases hs.step h hseed with hdone | ⟨next, hnext, hflood, hlt⟩
    · exact .inl hdone
    · exact .inr ⟨next, _, hnext, hlt, hflood, rfl⟩
  have above : Flood.weight m v ⟨[seed], before.insert (seed, v), corners⟩
      < m.triangles.size + 1 := by
    have hsub : (Finset.range m.triangles.size).filter (fun t => (t, v) ∉ before.insert (seed, v))
        ⊂ Finset.range m.triangles.size :=
      Finset.filter_ssubset.mpr ⟨seed, Finset.mem_range.mpr hseed.lt_size,
        not_not_intro (mem_insert_corner.mpr (.inl rfl))⟩
    have hlt := Finset.card_lt_card hsub
    rw [Finset.card_range] at hlt
    simp only [Flood.weight, List.length_singleton]
    omega
  obtain ⟨s, _, hok, ⟨hs, _⟩, hstack⟩ :=
    repeatWhile_spec progress ⟨Flooding.start hnew size, rfl⟩ above
  exact ⟨s, hok, hs.finish hstack closed hnew⟩

end
end Mesh
end DiskCut
