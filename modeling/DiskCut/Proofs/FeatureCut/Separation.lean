import DiskCut.Proofs.FeatureCut.Flood

/-!
# Separating the fans

* `Separated m s`     what holds after any number of fans: those reached have a vertex each, the
                      others are where they were
* `Later m s s'`      from `s` to `s'` no corner that was reached has moved
* `Claimed`           what it takes to give a fan its vertex
* `separateFan_spec`, `separateEdge_spec`   one fan, and the fans at both ends of a feature edge
-/

namespace DiskCut
open Std
namespace Mesh
variable {α : Type} {m : Mesh α} {e : EdgeId} {t u seed : TriangleId} {v target : VertexId}
  {s s₁ s' s'' : Separation}

/-- the fans reached so far have different vertices, one of them the old one -/
structure Separated (m : Mesh α) (s : Separation) : Prop where
  size : s.triangles.size = m.triangles.size
  le_size : m.vertices.size ≤ s.origin.size
  old : ∀ {v : VertexId}, v < m.vertices.size → s.origin[v]? = some v
  copy : ∀ {i v : VertexId}, m.vertices.size ≤ i → s.origin[i]? = some v →
    ∃ t, (t, v) ∈ s.reached ∧ m.cornerIn s.triangles t v = some i
  ray : ∀ {t : TriangleId} {v : VertexId}, (t, v) ∈ s.reached →
    ∃ seed, m.HasRay v seed ∧ m.SameFan v seed t
  closed : ∀ {v : VertexId} (t u : TriangleId), (t, v) ∈ s.reached → m.Beside v t u →
    (u, v) ∈ s.reached
  kept : ∀ {t : TriangleId} {v : VertexId}, m.IsCorner t v → (t, v) ∉ s.reached →
    m.cornerIn s.triangles t v = some v
  placed : ∀ {t : TriangleId} {v : VertexId}, (t, v) ∈ s.reached →
    ∃ w, m.cornerIn s.triangles t v = some w ∧ s.origin[w]? = some v
  same : ∀ {t u : TriangleId} {v : VertexId}, (t, v) ∈ s.reached → m.SameFan v t u →
    m.cornerIn s.triangles t v = m.cornerIn s.triangles u v
  apart : ∀ {t u : TriangleId} {v : VertexId}, (t, v) ∈ s.reached → (u, v) ∈ s.reached →
    m.cornerIn s.triangles t v = m.cornerIn s.triangles u v → m.SameFan v t u
  claimed : ∀ {v : VertexId},
    v ∈ s.claimed ↔ ∃ t, (t, v) ∈ s.reached ∧ m.cornerIn s.triangles t v = some v
  first : ∀ {t : TriangleId} {v : VertexId}, (t, v) ∈ s.reached → v ∈ s.claimed

/-- corners that are reached stay where they are, and copies keep their origin -/
structure Later (m : Mesh α) (s s' : Separation) : Prop where
  mono : ∀ c ∈ s.reached, c ∈ s'.reached
  fixed : ∀ {t : TriangleId} {v : VertexId}, (t, v) ∈ s.reached →
    m.cornerIn s'.triangles t v = m.cornerIn s.triangles t v

theorem Later.refl : Later m s s := ⟨fun _ hc => hc, fun _ => rfl⟩

theorem Later.trans (h : Later m s s') (h' : Later m s' s'') : Later m s s'' :=
  ⟨fun c hc => h'.mono c (h.mono c hc), fun hc => (h'.fixed (h.mono _ hc)).trans (h.fixed hc)⟩

theorem Separated.mem_of_sameFan (hs : Separated m s) (ht : (t, v) ∈ s.reached)
    (htu : m.SameFan v t u) : (u, v) ∈ s.reached :=
  htu.mem_of_closed (P := fun t => (t, v) ∈ s.reached) hs.closed ht

theorem separated_start (proper : m.Proper) : Separated m (.start m) where
  size := rfl
  le_size := by simp [Separation.start]
  old := by
    intro v hv
    simp [Separation.start, hv]
  copy := by
    intro i v hi hv
    have hlt := (Array.getElem?_eq_some_iff.mp hv).1
    simp only [Separation.start, List.size_toArray, List.length_range] at hlt
    omega
  ray := fun ht => absurd ht ExtTreeSet.not_mem_empty
  closed := fun _ _ ht => absurd ht ExtTreeSet.not_mem_empty
  kept := fun ht _ => cornerIn_self ht proper
  placed := fun ht => absurd ht ExtTreeSet.not_mem_empty
  same := fun ht => absurd ht ExtTreeSet.not_mem_empty
  apart := fun ht => absurd ht ExtTreeSet.not_mem_empty
  claimed := by
    intro v
    refine ⟨?_, ?_⟩
    · intro hv
      exact absurd hv ExtTreeSet.not_mem_empty
    · intro ⟨t, ht, _⟩
      exact absurd ht ExtTreeSet.not_mem_empty
  first := fun ht => absurd ht ExtTreeSet.not_mem_empty

/-! ## a vertex for a fan -/

/-- `target` is a vertex for a further fan at `v`, and `s₁` knows it -/
structure Claimed (m : Mesh α) (v : VertexId) (s s₁ : Separation) (target : VertexId) : Prop where
  triangles : s₁.triangles = s.triangles
  reached : s₁.reached = s.reached
  old : ∀ {i w : VertexId}, s.origin[i]? = some w → s₁.origin[i]? = some w
  home : s₁.origin[target]? = some v
  grows : s.origin.size ≤ s₁.origin.size
  only : ∀ {i w : VertexId}, s₁.origin[i]? = some w → s.origin[i]? = some w ∨ i = target ∧ w = v
  claimed : ∀ {w : VertexId}, w ∈ s₁.claimed ↔ v = w ∨ w ∈ s.claimed
  fresh : ∀ {t : TriangleId}, (t, v) ∈ s.reached → m.cornerIn s.triangles t v ≠ some target
  first : v ∈ s.claimed ∨ target = v

/-- the first fan at a vertex gets the vertex itself, a further one a new copy -/
theorem Separated.claim (hs : Separated m s) (hv : v < m.vertices.size) :
    Claimed m v s (s.claim v).1 (s.claim v).2 := by
  unfold Separation.claim
  split
  · rename_i hmem
    have hmem := ExtTreeSet.mem_iff_contains.mpr hmem
    exact {
      triangles := rfl
      reached := rfl
      old := by
        intro i w hi
        have hlt := (Array.getElem?_eq_some_iff.mp hi).1
        show (s.origin.push v)[i]? = some w
        rw [Array.getElem?_push, if_neg (Nat.ne_of_lt hlt)]
        exact hi
      home := by
        show (s.origin.push v)[s.origin.size]? = some v
        rw [Array.getElem?_push, if_pos rfl]
      grows := by
        show s.origin.size ≤ (s.origin.push v).size
        rw [Array.size_push]
        omega
      only := by
        intro i w hi
        change (s.origin.push v)[i]? = some w at hi
        rw [Array.getElem?_push] at hi
        split at hi
        · rename_i hi'
          exact .inr ⟨hi', (Option.some.inj hi).symm⟩
        · exact .inl hi
      claimed := by
        intro w
        refine ⟨?_, ?_⟩
        · exact .inr
        · intro hw
          rcases hw with rfl | hw
          · exact hmem
          · exact hw
      fresh := by
        intro t ht hcorner
        obtain ⟨w, hw, horigin⟩ := hs.placed ht
        rw [hw] at hcorner
        have hlt := (Array.getElem?_eq_some_iff.mp horigin).1
        exact Nat.ne_of_lt hlt (Option.some.inj hcorner)
      first := .inl hmem }
  · rename_i hmem
    have hmem : v ∉ s.claimed := fun h => hmem (ExtTreeSet.mem_iff_contains.mp h)
    exact {
      triangles := rfl
      reached := rfl
      old := id
      home := hs.old hv
      grows := Nat.le_refl _
      only := .inl
      claimed := by
        intro w
        show w ∈ s.claimed.insert v ↔ _
        rw [ExtTreeSet.mem_insert, Nat.compare_eq_eq]
      fresh := fun ht => absurd (hs.first ht) hmem
      first := .inr rfl }

/-! ## one fan -/

section
variable {flood : Flood} (hs : Separated m s) (hclaim : Claimed m v s s₁ target)
  (hnew : (seed, v) ∉ s.reached)
  (hflood : Flooded m v target s.reached s.triangles seed flood)
include hs hnew hflood

/-- the corners reached before stay where they are -/
theorem Separated.fixed {w : VertexId} (ht : (t, w) ∈ s.reached) :
    m.cornerIn flood.triangles t w = m.cornerIn s.triangles t w := by
  refine hflood.kept t w fun hw => ?_
  obtain ⟨rfl, hfan⟩ := hw
  exact hnew (hs.mem_of_sameFan ht hfan.symm)

include hclaim

/-- the new fan has a vertex that no fan before it has -/
theorem Separated.apart_move {w : VertexId} (ht : (t, w) ∈ flood.reached)
    (hu : (u, w) ∈ flood.reached)
    (htu : m.cornerIn flood.triangles t w = m.cornerIn flood.triangles u w) : m.SameFan w t u := by
  rcases (hflood.reached _).mp ht with ht | ⟨rfl, hfan⟩
  · rw [hs.fixed hnew hflood ht] at htu
    rcases (hflood.reached _).mp hu with hu | ⟨rfl, hfan⟩
    · rw [hs.fixed hnew hflood hu] at htu
      exact hs.apart ht hu htu
    · rw [hflood.moved u hfan] at htu
      exact absurd htu (hclaim.fresh ht)
  · rw [hflood.moved t hfan] at htu
    rcases (hflood.reached _).mp hu with hu | ⟨_, hfan'⟩
    · rw [hs.fixed hnew hflood hu] at htu
      exact absurd htu.symm (hclaim.fresh hu)
    · exact hfan.symm.trans hfan'

theorem Separated.claimed_move {w : VertexId} :
    w ∈ s₁.claimed ↔ ∃ t, (t, w) ∈ flood.reached ∧ m.cornerIn flood.triangles t w = some w := by
  have hold : w ∈ s.claimed →
      ∃ t, (t, w) ∈ flood.reached ∧ m.cornerIn flood.triangles t w = some w := by
    intro hw
    obtain ⟨t, ht, hcorner⟩ := hs.claimed.mp hw
    exact ⟨t, (hflood.reached _).mpr (.inl ht), (hs.fixed hnew hflood ht).trans hcorner⟩
  rw [hclaim.claimed]
  refine ⟨?_, ?_⟩
  · intro hw
    rcases hw with rfl | hw
    · rcases hclaim.first with hv | htarget
      · exact hold hv
      · exact ⟨seed, (hflood.reached _).mpr (.inr ⟨rfl, .refl⟩),
          (hflood.moved seed .refl).trans (congrArg some htarget)⟩
    · exact hold hw
  · intro ⟨t, ht, hcorner⟩
    rcases (hflood.reached _).mp ht with ht | ⟨rfl, _⟩
    · rw [hs.fixed hnew hflood ht] at hcorner
      exact .inr (hs.claimed.mpr ⟨t, ht, hcorner⟩)
    · exact .inl rfl

/-- a fan that was reached by no walk before, moved to a vertex of its own -/
theorem Separated.move (hray : m.HasRay v seed) :
    Separated m { s₁ with triangles := flood.triangles, reached := flood.reached } where
  size := hflood.size
  le_size := Nat.le_trans hs.le_size hclaim.grows
  old := fun hv => hclaim.old (hs.old hv)
  copy := by
    intro i w hi hw
    rcases hclaim.only hw with hw | ⟨rfl, rfl⟩
    · obtain ⟨t, ht, hcorner⟩ := hs.copy hi hw
      exact ⟨t, (hflood.reached _).mpr (.inl ht), (hs.fixed hnew hflood ht).trans hcorner⟩
    · exact ⟨seed, (hflood.reached _).mpr (.inr ⟨rfl, .refl⟩), hflood.moved seed .refl⟩
  ray := by
    intro t w ht
    rcases (hflood.reached _).mp ht with ht | ⟨rfl, hfan⟩
    · exact hs.ray ht
    · exact ⟨seed, hray, hfan⟩
  closed := by
    intro w t u ht hbeside
    rcases (hflood.reached _).mp ht with ht | ⟨rfl, hfan⟩
    · exact (hflood.reached _).mpr (.inl (hs.closed t u ht hbeside))
    · exact (hflood.reached _).mpr (.inr ⟨rfl, hfan.trans hbeside.sameFan⟩)
  kept := by
    intro t w ht hno
    rw [hflood.kept t w fun h => hno ((hflood.reached _).mpr (.inr h))]
    exact hs.kept ht fun h => hno ((hflood.reached _).mpr (.inl h))
  placed := by
    intro t w ht
    rcases (hflood.reached _).mp ht with ht | ⟨rfl, hfan⟩
    · obtain ⟨i, hi, horigin⟩ := hs.placed ht
      exact ⟨i, (hs.fixed hnew hflood ht).trans hi, hclaim.old horigin⟩
    · exact ⟨target, hflood.moved t hfan, hclaim.home⟩
  same := by
    intro t u w ht htu
    show m.cornerIn flood.triangles t w = m.cornerIn flood.triangles u w
    rcases (hflood.reached _).mp ht with ht | ⟨rfl, hfan⟩
    · rw [hs.fixed hnew hflood ht, hs.fixed hnew hflood (hs.mem_of_sameFan ht htu)]
      exact hs.same ht htu
    · rw [hflood.moved t hfan, hflood.moved u (hfan.trans htu)]
  apart := hs.apart_move hclaim hnew hflood
  claimed := hs.claimed_move hclaim hnew hflood
  first := by
    intro t w ht
    rw [hclaim.claimed]
    rcases (hflood.reached _).mp ht with ht | ⟨rfl, _⟩
    · exact .inr (hs.first ht)
    · exact .inl rfl

end

/-- the fan of a triangle with a feature edge at `v` separated -/
theorem separateFan_spec (h : m.Fitted) (hs : Separated m s) (hray : m.HasRay v seed) :
    ∃ s', m.separateFan v s seed = .ok s' ∧ Separated m s' ∧ Later m s s' ∧
      (seed, v) ∈ s'.reached := by
  unfold separateFan
  split
  · rename_i hmem
    exact ⟨s, rfl, hs, .refl, ExtTreeSet.mem_iff_contains.mpr hmem⟩
  · rename_i hmem
    have hnew : (seed, v) ∉ s.reached := fun h => hmem (ExtTreeSet.mem_iff_contains.mp h)
    have hcorner := h.isCorner_of_hasRay hray
    have hclaim := hs.claim (h.corner_lt_of_isCorner hcorner)
    obtain ⟨flood, hok, hflood⟩ := flood_spec h (s.claim v).2 hcorner hnew hs.closed hs.size
    have hlater : Later m s
        { (s.claim v).1 with triangles := flood.triangles, reached := flood.reached } :=
      ⟨fun c hc => (hflood.reached c).mpr (.inl hc), hs.fixed hnew hflood⟩
    refine ⟨_, ?_, hs.move hclaim hnew hflood hray, hlater,
      (hflood.reached _).mpr (.inr ⟨rfl, .refl⟩)⟩
    simp only [hclaim.triangles, hclaim.reached, hok, bind, Except.bind, pure, Except.pure]

/-! ## the fans at a feature edge -/

/-- the fans at one end of a feature edge -/
theorem separateEnd_spec (h : m.Fitted) (hs : Separated m s) (hfeature : m.IsFeature e)
    (hend : m.IsEnd e v) :
    ∃ s', m.separateEnd e s v = .ok s' ∧ Separated m s' ∧ Later m s s' ∧
      ∀ t, m.Incident e t → (t, v) ∈ s'.reached := by
  obtain ⟨ts, hts, hmem⟩ := h.trianglesAt_ok hend.lt_size
  have keep : ∀ pre seed post (s₁ : Separation), ts = pre ++ seed :: post →
      Separated m s₁ ∧ Later m s s₁ ∧ (∀ t ∈ pre, (t, v) ∈ s₁.reached) →
      ∃ next, m.separateFan v s₁ seed = .ok next ∧
        Separated m next ∧ Later m s next ∧ ∀ t ∈ pre ++ [seed], (t, v) ∈ next.reached := by
    intro pre seed post s₁ hsplit ⟨hs₁, hlater, hpre⟩
    have hinc : m.Incident e seed := (hmem seed).mp (by rw [hsplit]; simp)
    obtain ⟨next, hnext, hsep, hlater', hseed⟩ :=
      separateFan_spec h hs₁ ⟨e, hfeature, hend, hinc⟩
    refine ⟨next, hnext, hsep, hlater.trans hlater', fun t ht => ?_⟩
    rcases List.mem_append.mp ht with ht | ht
    · exact hlater'.mono _ (hpre t ht)
    · rw [List.mem_singleton.mp ht]
      exact hseed
  obtain ⟨s', hok, hsep, hlater, hall⟩ := foldlM_total
    (P := fun done s' => Separated m s' ∧ Later m s s' ∧ ∀ t ∈ done, (t, v) ∈ s'.reached)
    (f := m.separateFan v) keep ⟨hs, .refl, by simp⟩
  refine ⟨s', ?_, hsep, hlater, fun t ht => hall t ((hmem t).mpr ht)⟩
  unfold separateEnd
  rw [hts]
  exact hok

/-- the fans at both ends of a feature edge -/
theorem separateEdge_spec (h : m.Fitted) (hs : Separated m s) (hfeature : m.IsFeature e) :
    ∃ s', m.separateEdge s e = .ok s' ∧ Separated m s' ∧ Later m s s' ∧
      ∀ t v, m.Incident e t → m.IsEnd e v → (t, v) ∈ s'.reached := by
  obtain ⟨x, hx, _⟩ := id hfeature
  obtain ⟨s₁, hs₁, hsep₁, hlater₁, hall₁⟩ :=
    separateEnd_spec h hs hfeature ⟨x, hx, .inl rfl⟩
  obtain ⟨s₂, hs₂, hsep₂, hlater₂, hall₂⟩ :=
    separateEnd_spec h hsep₁ hfeature ⟨x, hx, .inr rfl⟩
  refine ⟨s₂, ?_, hsep₂, hlater₁.trans hlater₂, fun t v ht hv => ?_⟩
  · unfold separateEdge edge
    simp only [fetch_eq_ok_iff.mpr hx, List.foldlM_cons, List.foldlM_nil, hs₁, hs₂, bind,
      Except.bind, pure, Except.pure]
  · obtain ⟨y, hy, hv⟩ := hv
    rw [hx] at hy
    obtain rfl := Option.some.inj hy
    rcases hv with rfl | rfl
    · exact hlater₂.mono _ (hall₁ t ht)
    · exact hall₂ t ht

end Mesh
end DiskCut
