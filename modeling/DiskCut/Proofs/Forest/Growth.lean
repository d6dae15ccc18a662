import DiskCut.Forest
import DiskCut.Proofs.Forest.Span
import DiskCut.Proofs.Run

/-!
# The forest that is grown

* `Growing m C h s`     the growth `s` stands where the visits `h` lead; candidates are at first the
                        edges that satisfy `C`
* `Spreads h s h' s'`   what the visits after `h` add: each new triangle waits at the frontier
* `Spanning m f h`      the visits `h` lead to the forest `f`, and to every triangle
* `Fitted.spanningForest_ok`   a field with a distance for each vertex gives such a forest

A triangle that was visited waits at the frontier or has all its neighbours visited, save the one
that is just left.  A tree that has nothing left to wait for can grow no further, and each visit
puts one entry on the frontier, so the bound on the number of steps is not reached.
-/

namespace DiskCut
open Std
namespace Mesh
variable {α : Type} [Scalar α] [Extended α]

/-- triangle `t` waits at the frontier -/
def Waits (s : Growth α) (t : TriangleId) : Prop := ∃ w ∈ s.frontier, w.triangle = t

structure Growing (m : Mesh α) (C : EdgeId → Prop) (h : List Visit) (s : Growth α) : Prop where
  grown : Grown m h
  visited_size : s.visited.size = m.triangles.size
  visited : ∀ t, s.visited[t]? = some true ↔ Seen h t
  parent_size : s.parentEdge.size = m.triangles.size
  parent : ∀ t e, s.parentEdge[t]? = some (some e) ↔ ∃ x ∈ h, x.triangle = t ∧ x.parent = some e
  candidates : ∀ e, e ∈ s.candidates ↔ C e ∧ ¬ IsParent h e
  roots : s.roots = ((h.filter (·.parent.isNone)).map Visit.triangle).reverse
  waits : ∀ t, Waits s t → Seen h t

structure Spreads (h : List Visit) (s : Growth α) (h' : List Visit) (s' : Growth α) : Prop where
  kept : ∀ x ∈ h, x ∈ h'
  waits : ∀ t, Waits s t → Waits s' t
  fresh : ∀ t, Seen h' t → Seen h t ∨ Waits s' t
  weight : s'.frontier.size + h.length ≤ s.frontier.size + h'.length

section
variable {m : Mesh α} {C : EdgeId → Prop} {h h' h'' : List Visit} {s s' s'' : Growth α}
  {keys : Array (Rank α)} {x : Visit} {e : EdgeId} {t r : TriangleId}

theorem Spreads.refl : Spreads h s h s :=
  ⟨fun _ hx => hx, fun _ ht => ht, fun _ ht => .inl ht, Nat.le_refl _⟩

theorem Spreads.seen (hs : Spreads h s h' s') (ht : Seen h t) : Seen h' t := by
  obtain ⟨x, hx, rfl⟩ := ht
  exact seen_of_mem (hs.kept x hx)

theorem Spreads.trans (hs : Spreads h s h' s') (hs' : Spreads h' s' h'' s'') :
    Spreads h s h'' s'' := by
  refine ⟨fun x hx => hs'.kept x (hs.kept x hx), fun t ht => hs'.waits t (hs.waits t ht), ?_, ?_⟩
  · intro t ht
    rcases hs'.fresh t ht with ht | ht
    · exact (hs.fresh t ht).imp_right (hs'.waits t)
    · exact .inr ht
  · have hw := hs.weight
    have hw' := hs'.weight
    omega

/-! ## one visit -/

theorem Growing.not_visited (hs : Growing m C h s) (ht : t < m.triangles.size)
    (hnew : ¬ Seen h t) : s.visited[t]? = some false := by
  rw [← hs.visited_size] at ht
  have hsome := Array.getElem?_eq_getElem ht
  cases hv : s.visited[t] with
  | false => rw [hsome, hv]
  | true =>
    rw [hv] at hsome
    exact absurd ((hs.visited t).mp hsome) hnew

theorem waits_insert {key : Rank α} {visited : Array Bool} {parentEdge : Array (Option EdgeId)}
    {candidates : ExtTreeSet EdgeId} {roots : List TriangleId} {u : TriangleId} :
    Waits (⟨visited, parentEdge, candidates, roots, s.frontier.insert ⟨key, t⟩⟩ : Growth α) u ↔
      u = t ∨ Waits s u := by
  unfold Waits
  refine ⟨?_, ?_⟩
  · intro ⟨w, hw, hwu⟩
    rcases ExtTreeSet.mem_insert.mp hw with heq | hw
    · obtain rfl := LawfulEqCmp.eq_of_compare heq
      exact .inl hwu.symm
    · exact .inr ⟨w, hw, hwu⟩
  · intro hcase
    rcases hcase with rfl | ⟨w, hw, hwu⟩
    · exact ⟨_, ExtTreeSet.mem_insert_self, rfl⟩
    · exact ⟨w, ExtTreeSet.mem_insert.mpr (.inr hw), hwu⟩

/-- a triangle visited for the first time, with its parent edge entered and no candidate any more -/
theorem Growing.visit (hs : Growing m C h s) (hgrown : Grown m (x :: h))
    (hnew : ¬ Seen h x.triangle) (ht : x.triangle < m.triangles.size) (key : Rank α)
    {parentEdge : Array (Option EdgeId)}
    (hsize : parentEdge.size = s.parentEdge.size)
    (hparent : ∀ u : TriangleId,
      parentEdge[u]? = if x.triangle = u then some x.parent else s.parentEdge[u]?)
    {candidates : ExtTreeSet EdgeId}
    (hcandidates : ∀ e, e ∈ candidates ↔ e ∈ s.candidates ∧ x.parent ≠ some e) :
    Growing m C (x :: h) ⟨s.visited.modify x.triangle fun _ => true, parentEdge, candidates,
        s.roots ++ (if x.parent.isNone then [x.triangle] else []),
        s.frontier.insert ⟨key, x.triangle⟩⟩ ∧
      Spreads h s (x :: h) ⟨s.visited.modify x.triangle fun _ => true, parentEdge, candidates,
        s.roots ++ (if x.parent.isNone then [x.triangle] else []),
        s.frontier.insert ⟨key, x.triangle⟩⟩ := by
  refine ⟨?_, ?_⟩
  · exact {
      grown := hgrown
      visited_size := by
        rw [Array.size_modify]
        exact hs.visited_size
      visited := by
        intro u
        rw [seen_cons_iff, ← hs.visited u, Array.getElem?_modify]
        by_cases hu : x.triangle = u
        · rw [if_pos hu, ← hu, hs.not_visited ht hnew]
          simp
        · rw [if_neg hu]
          simp [hu]
      parent_size := hsize.trans hs.parent_size
      parent := by
        intro u e
        simp only [List.mem_cons, exists_eq_or_imp]
        rw [hparent u, ← hs.parent u e]
        by_cases hu : x.triangle = u
        · rw [if_pos hu, hs.parent u e]
          refine ⟨?_, ?_⟩
          · intro he
            exact .inl ⟨hu, Option.some.inj he⟩
          · intro hcase
            rcases hcase with ⟨_, he⟩ | ⟨y, hy, hyu, _⟩
            · rw [he]
            · exact absurd ⟨y, hy, hyu.trans hu.symm⟩ hnew
        · rw [if_neg hu]
          simp [hu]
      candidates := by
        intro e
        rw [hcandidates, hs.candidates, isParent_cons_iff, not_or]
        tauto
      roots := by
        rw [hs.roots, List.filter_cons]
        split
        · rw [List.map_cons, List.reverse_cons]
        · rw [List.append_nil]
      waits := by
        intro u hu
        rw [seen_cons_iff]
        exact (waits_insert.mp hu).imp Eq.symm (hs.waits u) }
  · refine ⟨fun y hy => List.mem_cons_of_mem _ hy, fun u hu => waits_insert.mpr (.inr hu), ?_, ?_⟩
    · intro u hu
      rcases seen_cons_iff.mp hu with hu | hu
      · exact .inr (waits_insert.mpr (.inl hu.symm))
      · exact .inl hu
    · have hle : (s.frontier.insert ⟨key, x.triangle⟩).size ≤ s.frontier.size + 1 :=
        ExtTreeSet.size_insert_le
      rw [List.length_cons]
      show (s.frontier.insert ⟨key, x.triangle⟩).size + h.length ≤ _
      omega

/-! ## one step -/

/-- a fold grows the forest when each of its steps does, and visits what each of them visits -/
theorem Growing.fold {β : Type} {l : List β} {f : Growth α → β → Except Fault (Growth α)}
    {R : β → TriangleId → Prop}
    (each : ∀ h' s' y, y ∈ l → Growing m C h' s' → (∀ x ∈ h, x ∈ h') →
      ∃ h'' next, f s' y = .ok next ∧ Growing m C h'' next ∧ Spreads h' s' h'' next ∧
        ∀ u, R y u → Seen h'' u)
    (hs : Growing m C h s) :
    ∃ h' s', l.foldlM f s = .ok s' ∧ Growing m C h' s' ∧ Spreads h s h' s' ∧
      ∀ y ∈ l, ∀ u, R y u → Seen h' u := by
  have keep : ∀ pre y post (s' : Growth α), l = pre ++ y :: post →
      (∃ h', Growing m C h' s' ∧ Spreads h s h' s' ∧ ∀ d ∈ pre, ∀ u, R d u → Seen h' u) →
      ∃ next, f s' y = .ok next ∧
        ∃ h', Growing m C h' next ∧ Spreads h s h' next ∧
          ∀ d ∈ pre ++ [y], ∀ u, R d u → Seen h' u := by
    rintro pre y post s' hpre ⟨h', hs', hspread, hdone⟩
    obtain ⟨h'', next, hok, hnext, hstep, hall⟩ :=
      each h' s' y (by rw [hpre]; simp) hs' hspread.kept
    refine ⟨next, hok, h'', hnext, hspread.trans hstep, fun d hd u hu => ?_⟩
    rcases List.mem_append.mp hd with hd | hd
    · exact hstep.seen (hdone d hd u hu)
    · obtain rfl := List.mem_singleton.mp hd
      exact hall u hu
  obtain ⟨s', hok, h', hs', hspread, hall⟩ := foldlM_total keep
    ⟨h, hs, .refl, fun d hd => absurd hd List.not_mem_nil⟩
  exact ⟨h', s', hok, hs', hspread, hall⟩

variable (fit : m.Fitted) (hkeys : keys.size = m.triangles.size)
include fit hkeys

theorem Growing.reach (hs : Growing m C h s) (hx : x ∈ h) (hplain : m.IsPlain e)
    (hxe : m.Incident e x.triangle) (hte : m.Incident e t) :
    ∃ h' s', Growth.reach keys e s t = .ok s' ∧ Growing m C h' s' ∧ Spreads h s h' s' ∧
      Seen h' t := by
  have ht := fit.lt_of_incident hte
  unfold Growth.reach
  by_cases hseen : Seen h t
  · refine ⟨h, s, ?_, hs, .refl, hseen⟩
    rw [fetch_eq_ok_iff.mpr ((hs.visited t).mpr hseen)]
    rfl
  · have htkeys : t < keys.size := hkeys ▸ ht
    have hparent : ∀ u : TriangleId, (s.parentEdge.modify t fun _ => some e)[u]?
        = if t = u then some (some e) else s.parentEdge[u]? := by
      intro u
      rw [Array.getElem?_modify]
      by_cases htu : t = u
      · rw [if_pos htu, if_pos htu, ← htu, Array.getElem?_eq_getElem (hs.parent_size.symm ▸ ht)]
        rfl
      · rw [if_neg htu, if_neg htu]
    have hcandidates : ∀ d, d ∈ s.candidates.erase e ↔ d ∈ s.candidates ∧ some e ≠ some d := by
      intro d
      rw [ExtTreeSet.mem_erase, ne_eq, Nat.compare_eq_eq, and_comm, ne_eq, Option.some.injEq]
    have hvisit := hs.visit (.reach hs.grown hx hplain hxe hte hseen) hseen ht
      keys[t] Array.size_modify hparent hcandidates
    refine ⟨_, _, ?_, hvisit.1, hvisit.2, seen_of_mem List.mem_cons_self⟩
    rw [fetch_eq_ok_iff.mpr (hs.not_visited ht hseen), alter_of_lt (hs.visited_size.symm ▸ ht),
      alter_of_lt (hs.parent_size.symm ▸ ht)]
    unfold Growth.enter
    rw [fetch_of_lt htkeys]
    show Except.ok _ = Except.ok _
    rw [show (if (some e : Option EdgeId).isNone then [t] else []) = [] from rfl, List.append_nil]

theorem Growing.cross (hs : Growing m C h s) (hx : x ∈ h) (hxe : m.Incident e x.triangle) :
    ∃ h' s', Growth.cross m keys s e = .ok s' ∧ Growing m C h' s' ∧ Spreads h s h' s' ∧
      ∀ t, m.IsPlain e ∧ m.Incident e t → Seen h' t := by
  have he := fit.lt_size_of_incident hxe
  unfold Growth.cross
  rcases isPlain_or_isFeature he with hplain | hfeature
  · obtain ⟨ts, hts, hmem⟩ := fit.trianglesAt_ok he
    rw [isFeatureEdge_of_isPlain hplain, hts]
    obtain ⟨h', s', hok, hs', hspread, hall⟩ := hs.fold (l := ts) (f := Growth.reach keys e)
      (R := fun t u => u = t) fun h' s' t ht hs' hkept => by
        obtain ⟨h'', next, hok, hnext, hspread, hseen⟩ :=
          hs'.reach fit hkeys (hkept x hx) hplain hxe ((hmem t).mp ht)
        exact ⟨h'', next, hok, hnext, hspread, fun u hu => hu ▸ hseen⟩
    exact ⟨h', s', hok, hs', hspread, fun t ht => hall t ((hmem t).mpr ht.2) t rfl⟩
  · refine ⟨h, s, ?_, hs, .refl, fun t ht => absurd hfeature ht.1.not_isFeature⟩
    rw [isFeatureEdge_of_isFeature hfeature]
    rfl

/-- a triangle that was visited waits, or has all its neighbours visited -/
def Settled (m : Mesh α) (h : List Visit) (s : Growth α) : Prop :=
  ∀ x ∈ h, Waits s x.triangle ∨ ∀ u, m.Dual x.triangle u → Seen h u

theorem Growing.step (hs : Growing m C h s) (hset : m.Settled h s) :
    (s.frontier = ∅ ∧ Growth.step m keys s = .ok none) ∨
      ∃ h' s', Growth.step m keys s = .ok (some s') ∧ Growing m C h' s' ∧ m.Settled h' s' ∧
        (∀ x ∈ h, x ∈ h') ∧
        s'.frontier.size + h.length < s.frontier.size + h'.length := by
  unfold Growth.step
  split
  · rename_i hpop
    exact .inl ⟨Queue.pop?_eq_none_iff.mp hpop, rfl⟩
  rename_i first rest hpop
  have hfirst := Queue.mem_of_pop? hpop
  have hrest := Queue.rest_of_pop? hpop
  obtain ⟨x, hx, hxt⟩ := hs.waits _ ⟨first, hfirst, rfl⟩
  have hleft : ∀ t, Waits s t → t = first.triangle ∨ Waits { s with frontier := rest } t := by
    rintro t ⟨w, hw, rfl⟩
    by_cases hwf : Frontier.order first w = .eq
    · exact .inl (by rw [LawfulEqCmp.eq_of_compare hwf])
    · exact .inr ⟨w, hrest ▸ ExtTreeSet.mem_erase.mpr ⟨hwf, hw⟩, rfl⟩
  have hstart : Growing m C h { s with frontier := rest } := { hs with
    waits := by
      rintro t ⟨w, hw, rfl⟩
      rw [hrest] at hw
      exact hs.waits _ ⟨w, (ExtTreeSet.mem_erase.mp hw).2, rfl⟩ }
  obtain ⟨es, hes, hmem⟩ := fit.sidesOf_ok (hxt ▸ hs.grown.lt_size fit x hx)
  obtain ⟨h', s', hok, hs', hspread, hall⟩ := hstart.fold (l := es.toList)
    (f := Growth.cross m keys) (R := fun e u => m.IsPlain e ∧ m.Incident e u)
    fun h' s' e he hs' hkept => hs'.cross fit hkeys (hkept x hx) (hxt ▸ (hmem e).mp he)
  refine .inr ⟨h', s', ?_, hs', ?_, hspread.kept, ?_⟩
  · rw [hes]
    show (es.toList.foldlM (Growth.cross m keys) { s with frontier := rest } >>= _) = _
    rw [hok]
    rfl
  · intro y hy
    rcases hspread.fresh _ (seen_of_mem hy) with hold | hwait
    · obtain ⟨z, hz, hzy⟩ := hold
      rw [← hzy]
      rcases hset z hz with hwait | hclosed
      · rcases hleft _ hwait with hleave | hwait
        -- the triangle that left the frontier, with all its sides crossed
        · refine .inr fun u ⟨e, hplain, hinc, hu⟩ => ?_
          rw [hleave] at hinc
          exact hall e ((hmem e).mpr hinc) u ⟨hplain, hu⟩
        · exact .inl (hspread.waits _ hwait)
      · exact .inr fun u hu => hspread.seen (hclosed u hu)
    · exact .inl hwait
  · have hweight := hspread.weight
    have hsize := size_erase_add_one hfirst
    rw [← hrest] at hsize
    change s'.frontier.size + h.length ≤ rest.size + h'.length at hweight
    omega

/-! ## one tree -/

/-- a forest that can grow no further, with nothing waiting -/
structure Rested (m : Mesh α) (C : EdgeId → Prop) (h : List Visit) (s : Growth α) : Prop
    extends Growing m C h s where
  frontier : s.frontier = ∅
  closed : m.Closed h

/-- a settled growth goes on until nothing waits -/
theorem Growing.run (hs : Growing m C h s) (hset : m.Settled h s)
    (hfew : s.frontier.size ≤ h.length) :
    ∃ h' last, repeatWhile (Growth.step m keys) (m.triangles.size + 1) s = .ok last ∧
      Rested m C h' last ∧ ∀ x ∈ h, x ∈ h' := by
  -- the rank counts the triangles not visited and those that wait
  have progress : ∀ n s', (∃ h', Growing m C h' s' ∧ m.Settled h' s' ∧ (∀ x ∈ h, x ∈ h') ∧
        n = m.triangles.size - h'.length + s'.frontier.size) →
      (s'.frontier = ∅ ∧ Growth.step m keys s' = .ok none) ∨
        ∃ next k, Growth.step m keys s' = .ok (some next) ∧ k < n ∧
          ∃ h', Growing m C h' next ∧ m.Settled h' next ∧ (∀ x ∈ h, x ∈ h') ∧
            k = m.triangles.size - h'.length + next.frontier.size := by
    rintro n s' ⟨h', hs', hset, hkept, rfl⟩
    rcases hs'.step fit hkeys hset with hdone | ⟨h'', next, hok, hnext, hset', hkept', hlt⟩
    · exact .inl hdone
    · have hle := hnext.grown.length_le fit
      refine .inr ⟨next, _, hok, ?_, h'', hnext, hset', fun x hx => hkept' x (hkept x hx), rfl⟩
      omega
  have hle := hs.grown.length_le fit
  have below : m.triangles.size - h.length + s.frontier.size < m.triangles.size + 1 := by
    omega
  obtain ⟨last, _, hok, ⟨h', hlast, hset', hkept, _⟩, hempty⟩ :=
    repeatWhile_spec progress ⟨h, hs, hset, fun x hx => hx, rfl⟩ below
  refine ⟨h', last, hok, ⟨hlast, hempty, fun x hx => ?_⟩, hkept⟩
  rcases hset' x hx with ⟨w, hw, _⟩ | hclosed
  · rw [hempty] at hw
    exact absurd hw ExtTreeSet.not_mem_empty
  · exact hclosed

omit fit in
/-- a root entered in a forest that rests waits alone -/
theorem Rested.enter (hs : Rested m C h s) (ht : t < m.triangles.size) (hnew : ¬ Seen h t) :
    ∃ planted : Growth α, Growth.enter keys { s with
        visited := s.visited.modify t fun _ => true, roots := s.roots ++ [t] } t = .ok planted ∧
      Growing m C (⟨t, t, none⟩ :: h) planted ∧ Waits planted t ∧ planted.frontier.size ≤ 1 := by
  have hparent : ∀ u : TriangleId,
      s.parentEdge[u]? = if t = u then some none else s.parentEdge[u]? := by
    intro u
    by_cases htu : t = u
    · subst htu
      rw [if_pos rfl]
      have htlt : t < s.parentEdge.size := hs.parent_size.symm ▸ ht
      have hsome := Array.getElem?_eq_getElem htlt
      cases hp : s.parentEdge[t] with
      | none => rw [hsome, hp]
      | some e =>
        rw [hp] at hsome
        obtain ⟨x, hx, hxt, _⟩ := (hs.parent t e).mp hsome
        exact absurd ⟨x, hx, hxt⟩ hnew
    · rw [if_neg htu]
  have hcandidates : ∀ e, e ∈ s.candidates ↔ e ∈ s.candidates ∧ (none : Option EdgeId) ≠ some e :=
    fun e => ⟨fun he => ⟨he, nofun⟩, And.left⟩
  have htkeys : t < keys.size := hkeys ▸ ht
  have hvisit := hs.visit (.plant hs.grown ht hnew hs.closed) hnew ht keys[t] rfl hparent
    hcandidates
  refine ⟨_, ?_, hvisit.1, waits_insert.mpr (.inl rfl), ?_⟩
  · unfold Growth.enter
    rw [fetch_of_lt htkeys]
    rfl
  · rw [hs.frontier]
    exact ExtTreeSet.size_insert_le

theorem Rested.plant (hs : Rested m C h s) (ht : t < m.triangles.size) :
    ∃ h' s', Growth.plant m keys s t = .ok s' ∧ Rested m C h' s' ∧ (∀ u, Seen h u → Seen h' u) ∧
      Seen h' t := by
  unfold Growth.plant
  by_cases hseen : Seen h t
  · refine ⟨h, s, ?_, hs, fun u hu => hu, hseen⟩
    rw [fetch_eq_ok_iff.mpr ((hs.visited t).mpr hseen)]
    rfl
  obtain ⟨planted, hplant, hplanted, hwaits, hsize⟩ := hs.enter hkeys ht hseen
  have hset : m.Settled (⟨t, t, none⟩ :: h) planted := by
    intro x hx
    rcases List.mem_cons.mp hx with rfl | hx
    · exact .inl hwaits
    · exact .inr fun u hu => (hs.closed x hx u hu).cons
  obtain ⟨h', last, hok, hlast, hkept⟩ := hplanted.run fit hkeys hset
    (Nat.le_trans hsize (Nat.succ_le_succ (Nat.zero_le h.length)))
  refine ⟨h', last, ?_, hlast, ?_, ?_⟩
  · rw [fetch_eq_ok_iff.mpr (hs.not_visited ht hseen), alter_of_lt (hs.visited_size.symm ▸ ht)]
    show (Growth.enter keys _ t >>= _) = _
    rw [hplant]
    exact hok
  · rintro u ⟨x, hx, rfl⟩
    exact seen_of_mem (hkept x (List.mem_cons_of_mem _ hx))
  · exact seen_of_mem (hkept _ List.mem_cons_self)

/-! ## the whole forest -/

omit fit hkeys in
theorem rested_start {candidates : ExtTreeSet EdgeId} (hC : ∀ e, e ∈ candidates ↔ C e) :
    Rested m C [] {
      visited := (List.replicate m.triangles.size false).toArray
      parentEdge := (List.replicate m.triangles.size none).toArray
      candidates
      roots := []
      frontier := (∅ : Queue (Frontier α) Frontier.order) } where
  grown := .nil
  visited_size := by simp
  visited := by
    intro t
    simp [Seen, Array.getElem?_replicate]
  parent_size := by simp
  parent := by
    intro t e
    simp [Array.getElem?_replicate]
  candidates := by
    intro e
    simp [IsParent, hC]
  roots := rfl
  waits := by
    rintro t ⟨w, hw, _⟩
    exact absurd hw ExtTreeSet.not_mem_empty
  frontier := rfl
  closed := nofun

theorem Rested.plantAll (hs : Rested m C [] s) :
    ∃ h' s', (List.range m.triangles.size).foldlM (Growth.plant m keys) s = .ok s' ∧
      Rested m C h' s' ∧ ∀ t < m.triangles.size, Seen h' t := by
  have keep : ∀ pre t post (s' : Growth α), List.range m.triangles.size = pre ++ t :: post →
      (∃ h', Rested m C h' s' ∧ ∀ u ∈ pre, Seen h' u) →
      ∃ next, Growth.plant m keys s' t = .ok next ∧
        ∃ h', Rested m C h' next ∧ ∀ u ∈ pre ++ [t], Seen h' u := by
    rintro pre t post s' hpre ⟨h', hs', hseen⟩
    have ht : t < m.triangles.size := List.mem_range.mp (by rw [hpre]; simp)
    obtain ⟨h'', next, hok, hnext, hkept, hnew⟩ := hs'.plant fit hkeys ht
    refine ⟨next, hok, h'', hnext, fun u hu => ?_⟩
    rcases List.mem_append.mp hu with hu | hu
    · exact hkept u (hseen u hu)
    · obtain rfl := List.mem_singleton.mp hu
      exact hnew
  obtain ⟨s', hok, h', hs', hall⟩ := foldlM_total keep
    ⟨[], hs, fun u hu => absurd hu List.not_mem_nil⟩
  exact ⟨h', s', hok, hs', fun t ht => hall t (List.mem_range.mpr ht)⟩

end

structure Spanning (m : Mesh α) (f : SpanningForest) (h : List Visit) : Prop where
  grown : Grown m h
  closed : m.Closed h
  seen : ∀ t < m.triangles.size, Seen h t
  parent_size : f.parentEdge.size = m.triangles.size
  parent : ∀ t e, f.parentEdge[t]? = some (some e) ↔ ∃ x ∈ h, x.triangle = t ∧ x.parent = some e
  candidates : ∀ e, e ∈ f.candidates ↔ (m.IsFeature e ∨ m.IsInner e) ∧ ¬ IsParent h e
  roots : f.roots = ((h.filter (·.parent.isNone)).map Visit.triangle).reverse

namespace Spanning
variable {m : Mesh α} {f : SpanningForest} {h : List Visit} {t : TriangleId}
  (hs : m.Spanning f h)
include hs

omit [Scalar α] [Extended α] in
theorem mem_roots : t ∈ f.roots ↔ ∃ x ∈ h, x.parent = none ∧ x.triangle = t := by
  rw [hs.roots, List.mem_reverse, List.mem_map]
  simp only [List.mem_filter, Option.isNone_iff_eq_none, and_assoc]

omit [Scalar α] [Extended α] in
theorem nodup_roots : f.roots.Nodup := by
  rw [hs.roots, List.nodup_reverse]
  exact hs.grown.nodup.sublist (List.filter_sublist.map _)

omit [Scalar α] [Extended α] in
theorem length_roots : (h.filter (·.parent.isNone)).length = f.numComponents := by
  unfold SpanningForest.numComponents
  rw [hs.roots, List.length_reverse, List.length_map]

omit [Scalar α] [Extended α] in
/-- one visit for each triangle -/
theorem length_visits (fit : m.Fitted) : h.length = m.triangles.size := by
  have hperm : (h.map Visit.triangle).Perm (List.range m.triangles.size) := by
    refine (List.perm_ext_iff_of_nodup hs.grown.nodup List.nodup_range).mpr fun t => ?_
    rw [List.mem_map, List.mem_range]
    refine ⟨?_, ?_⟩
    · intro hex
      obtain ⟨x, hx, rfl⟩ := hex
      exact hs.grown.lt_size fit x hx
    · exact hs.seen t
  have hlen := hperm.length_eq
  rwa [List.length_map, List.length_range] at hlen

end Spanning

section
variable {m : Mesh α} {e : EdgeId} {field : DistanceField α} {order : GrowthOrder}
  {keys : List (Rank α)} {f : SpanningForest}

omit [Scalar α] [Extended α] in
theorem Fitted.isCuttable_ok (fit : m.Fitted) (he : e < m.edges.size) :
    ∃ b, m.isCuttable e = .ok b ∧ (b = true ↔ m.IsFeature e ∨ m.IsInner e) := by
  unfold isCuttable
  rcases isPlain_or_isFeature he with hplain | hfeature
  · obtain ⟨ts, hts, _⟩ := fit.trianglesAt_ok he
    have hts := fetch_eq_ok_iff.mp hts
    have hlen := fit.length_le_two hts
    refine ⟨!decide (ts.length < 2), ?_, ?_⟩
    · rw [isFeatureEdge_of_isPlain hplain, isBoundaryEdge_eq hts]
      rfl
    · rw [Bool.not_eq_true', decide_eq_false_iff_not]
      refine ⟨?_, ?_⟩
      · intro hlen'
        obtain ⟨t, u, rfl⟩ := List.length_eq_two.mp (by omega : ts.length = 2)
        exact .inr ⟨t, u, hts⟩
      · intro hcase
        rcases hcase with hfeature | ⟨t, u, htu⟩
        · exact absurd hfeature hplain.not_isFeature
        · rw [hts] at htu
          rw [Option.some.inj htu]
          simp
  · refine ⟨true, ?_, ?_⟩
    · rw [isFeatureEdge_of_isFeature hfeature]
      rfl
    · exact ⟨fun _ => .inl hfeature, fun _ => rfl⟩

/-- a field that has a key for every triangle gives a forest that spans the mesh -/
theorem spanningForest_of_keys (fit : m.Fitted)
    (hkeys : (List.range m.triangles.size).mapM (m.growthKey field order) = .ok keys) :
    ∃ f h, m.spanningForest field order = .ok f ∧ m.Spanning f h := by
  have hsize : keys.toArray.size = m.triangles.size := by
    have hlen := (mapM_eq_ok_iff.mp hkeys).length_eq
    rw [List.length_range] at hlen
    exact hlen.symm
  have htotal : ∀ e ∈ List.range m.edges.size, ∃ b, m.isCuttable e = .ok b := by
    intro e he
    obtain ⟨b, hb, _⟩ := fit.isCuttable_ok (List.mem_range.mp he)
    exact ⟨b, hb⟩
  obtain ⟨cuttable, hcuttable⟩ := filterM_total htotal
  have hmem : ∀ e, e ∈ ExtTreeSet.ofList cuttable compare ↔ m.IsFeature e ∨ m.IsInner e := by
    intro e
    have hchosen := (filterM_eq_ok hcuttable).2 e
    rw [ExtTreeSet.mem_ofList, List.contains_iff_mem, hchosen, List.mem_range]
    refine ⟨?_, ?_⟩
    · intro ⟨he, hok⟩
      obtain ⟨b, hb, hiff⟩ := fit.isCuttable_ok he
      rw [hok] at hb
      exact hiff.mp (Except.ok.inj hb).symm
    · intro hkind
      have he : e < m.edges.size := by
        rcases hkind with hfeature | ⟨t, u, htu⟩
        · exact hfeature.lt_size
        · exact fit.lt_size_of_incident ⟨_, htu, List.mem_cons_self⟩
      obtain ⟨b, hb, hiff⟩ := fit.isCuttable_ok he
      exact ⟨he, by rw [hb, hiff.mpr hkind]⟩
  obtain ⟨h, grown, hgrown, hrest, hall⟩ := (rested_start hmem).plantAll fit hsize
  refine ⟨⟨grown.candidates, grown.parentEdge, grown.roots⟩, h, ?_, ?_⟩
  · unfold spanningForest
    rw [bind_eq_ok_iff]
    refine ⟨keys, hkeys, bind_eq_ok_iff.mpr ⟨cuttable, hcuttable, ?_⟩⟩
    exact bind_eq_ok_iff.mpr ⟨grown, hgrown, rfl⟩
  · exact {
      grown := hrest.grown
      closed := hrest.closed
      seen := hall
      parent_size := hrest.parent_size
      parent := hrest.parent
      candidates := hrest.candidates
      roots := hrest.roots }

/-- a distance for each vertex gives a key for each triangle -/
theorem Fitted.growthKey_ok (fit : m.Fitted) (hf : field.distances.size = m.vertices.size)
    (order : GrowthOrder) {t : TriangleId} (ht : t < m.triangles.size) :
    ∃ k, m.growthKey field order t = .ok k := by
  have hvs := fit.corner_lt (Array.getElem?_eq_getElem ht)
  rw [← hf] at hvs
  unfold growthKey triangle DistanceField.distance
  exact ⟨_, bind_eq_ok_iff.mpr ⟨_, fetch_of_lt ht, bind_eq_ok_iff.mpr ⟨_, fetch_of_lt (hvs 0),
    bind_eq_ok_iff.mpr ⟨_, fetch_of_lt (hvs 1), bind_eq_ok_iff.mpr ⟨_, fetch_of_lt (hvs 2),
    rfl⟩⟩⟩⟩⟩

/-- and so a forest -/
theorem Fitted.spanningForest_ok (fit : m.Fitted) (hf : field.distances.size = m.vertices.size)
    (order : GrowthOrder) : ∃ f h, m.spanningForest field order = .ok f ∧ m.Spanning f h := by
  obtain ⟨keys, hkeys⟩ := mapM_total (f := m.growthKey field order)
    fun _ ht => fit.growthKey_ok hf order (List.mem_range.mp ht)
  exact spanningForest_of_keys fit hkeys

/-- a forest that was found spans the mesh -/
theorem spanningForest_spec (fit : m.Fitted) (hf : m.spanningForest field order = .ok f) :
    ∃ h, m.Spanning f h := by
  have hok := hf
  unfold spanningForest at hok
  obtain ⟨keys, hkeys, _⟩ := bind_eq_ok_iff.mp hok
  obtain ⟨f', h, hf', hspan⟩ := spanningForest_of_keys fit hkeys
  rw [hf] at hf'
  exact ⟨h, Except.ok.inj hf' ▸ hspan⟩

end
end Mesh
end DiskCut
