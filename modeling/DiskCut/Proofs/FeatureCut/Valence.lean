import DiskCut.Proofs.FeatureCut.Frames

/-!
# What stops the frames of a cut mesh

A feature fan is a chain that ends at one feature edge or two, so on a severed mesh nothing but a
vertex with a single feature edge stands in the way of frames.

* `featureVertices_pairwise`    feature vertices are listed from the lowest
* `FramedByValence m`           how many feature edges meet at the vertices of `m`, and what the
                                frames make of that
* `Severed.framedByValence`     so it is on a severed mesh
* `cutAlongFeatures_frames`     and on the cut of every mesh that the library gives
-/

namespace DiskCut
namespace Mesh
variable {α : Type} {m : Mesh α}

theorem featureVertices_pairwise (m : Mesh α) : m.featureVertices.Pairwise (· < ·) :=
  m.featureStars.ordered_keys.imp Nat.compare_eq_lt.mp

section
variable [Scalar α] [Trig α]

/-- one or two feature edges meet at every feature vertex, and the frames are found just when there
are two everywhere -/
structure FramedByValence (m : Mesh α) : Prop where
  ascending : m.featureVertices.Pairwise (· < ·)
  featureVertices_iff : ∀ v, v ∈ m.featureVertices ↔ ∃ e, m.IsFeature e ∧ m.IsEnd e v
  featureEdgesAt_iff : ∀ v e, e ∈ m.featureEdgesAt v ↔ m.IsFeature e ∧ m.IsEnd e v
  distinct : ∀ v, (m.featureEdgesAt v).Nodup
  one_or_two : ∀ v ∈ m.featureVertices,
    (m.featureEdgesAt v).length = 1 ∨ (m.featureEdgesAt v).length = 2
  /-- a feature edge with two triangles meets no other one -/
  alone : ∀ e v, m.IsFeature e → m.IsInner e → m.IsEnd e v → m.featureEdgesAt v = [e]
  framed_iff : (∃ frames, m.darbouxFrames.result = .ok frames) ↔
    ∀ v ∈ m.featureVertices, (m.featureEdgesAt v).length = 2
  /-- one frame for each feature vertex -/
  frames : ∀ frames, m.darbouxFrames.result = .ok frames → frames.map Prod.fst = m.featureVertices
  /-- the lowest feature vertex with one feature edge is named -/
  refused : ∀ fault, m.darbouxFrames.result = .error fault →
    ∃ v ∈ m.featureVertices, (m.featureEdgesAt v).length = 1 ∧
      (∀ u ∈ m.featureVertices, (m.featureEdgesAt u).length = 1 → v ≤ u) ∧
      fault = .mesh (.featureValence v 1)
  split : ∀ v, m.darbouxFrames.result ≠ .error (.mesh (.notSplitAlongFeatures v))
  reference : ∀ v, m.darbouxFrames.result ≠ .error (.mesh (.missingReferenceEdge v))

namespace Severed
variable (h : m.Severed)
include h

theorem darbouxFrames_refused {fault : Fault} (herr : m.darbouxFrames.result = .error fault) :
    ∃ v ∈ m.featureVertices, (m.featureEdgesAt v).length = 1 ∧
      (∀ u ∈ m.featureVertices, (m.featureEdgesAt u).length = 1 → v ≤ u) ∧
      fault = .mesh (.featureValence v 1) := by
  rcases h.darbouxFrames_cases with ⟨_, frames, hok, _⟩ | ⟨pre, v, post, e, hsplit, hpre, he, hstop⟩
  · rw [hok] at herr
    cases herr
  · rw [hstop] at herr
    have hone : (m.featureEdgesAt v).length = 1 := by rw [he]; rfl
    refine ⟨v, by simp [hsplit], hone, fun u hu hlen => ?_, (Except.error.inj herr).symm⟩
    -- vertices before `v` in the list have two feature edges, those after it are higher
    have hsorted := featureVertices_pairwise m
    rw [hsplit] at hsorted hu
    obtain ⟨_, hpost, _⟩ := List.pairwise_append.mp hsorted
    rcases List.mem_append.mp hu with hu | hu
    · have htwo := hpre u hu
      omega
    · rcases List.mem_cons.mp hu with rfl | hu
      · exact Nat.le_refl u
      · exact Nat.le_of_lt (List.rel_of_pairwise_cons hpost hu)

theorem darbouxFrames_ok_iff : (∃ frames, m.darbouxFrames.result = .ok frames) ↔
    ∀ v ∈ m.featureVertices, (m.featureEdgesAt v).length = 2 := by
  refine ⟨fun ⟨frames, hok⟩ => ?_, fun hall => ?_⟩
  · rcases h.darbouxFrames_cases with ⟨hall, _⟩ | ⟨_, _, _, _, _, _, _, hstop⟩
    · exact hall
    · rw [hstop] at hok
      cases hok
  · cases hrun : m.darbouxFrames.result with
    | ok frames => exact ⟨frames, rfl⟩
    | error fault =>
      obtain ⟨v, hv, hone, _⟩ := h.darbouxFrames_refused hrun
      have htwo := hall v hv
      omega

theorem fst_of_darbouxFrames {frames : List (VertexId × Frame α)}
    (hok : m.darbouxFrames.result = .ok frames) : frames.map Prod.fst = m.featureVertices := by
  rcases h.darbouxFrames_cases with ⟨_, frames', hok', hfst⟩ | ⟨_, _, _, _, _, _, _, hstop⟩
  · rw [hok] at hok'
    rw [Except.ok.inj hok', hfst]
  · rw [hok] at hstop
    cases hstop

theorem framedByValence : FramedByValence m where
  ascending := featureVertices_pairwise m
  featureVertices_iff v := by
    rw [h.coherent.starred.mem_featureVertices]
    exact exists_congr fun e => and_congr_left' (h.coherent.feature e)
  featureEdgesAt_iff _ _ := h.mem_featureEdgesAt
  distinct _ := h.nodup_featureEdgesAt
  one_or_two v hv := by
    rcases h.featureEdgesAt_cases hv with ⟨e, he⟩ | ⟨e₁, e₂, hes⟩
    · exact .inl (by rw [he]; rfl)
    · exact .inr (by rw [hes]; rfl)
  alone _ _ := h.featureEdgesAt_of_inner
  framed_iff := h.darbouxFrames_ok_iff
  frames _ := h.fst_of_darbouxFrames
  refused _ := h.darbouxFrames_refused
  split v herr := by
    obtain ⟨_, _, _, _, hfault⟩ := h.darbouxFrames_refused herr
    cases hfault
  reference v herr := by
    obtain ⟨_, _, _, _, hfault⟩ := h.darbouxFrames_refused herr
    cases hfault

end Severed

/-- every mesh that the library gives is cut into one whose frames can only fail by a feature vertex
with a single feature edge -/
theorem cutAlongFeatures_frames (h : Obtained m) :
    ∃ c, m.cutAlongFeatures = .ok c ∧ FramedByValence c.mesh := by
  obtain ⟨c, s, hok, hcut⟩ := h.cut
  exact ⟨c, hok, (hcut.severed h.coherent).framedByValence⟩

theorem frames_threeTriangles : ∃ m, threeTriangles.result = .ok m ∧
    ∃ c, m.cutAlongFeatures = .ok c ∧ FramedByValence c.mesh := by
  obtain ⟨m, hm, _⟩ := threeTriangles_ok
  exact ⟨m, hm, cutAlongFeatures_frames (.ofTriangles hm)⟩

end

end Mesh
end DiskCut
