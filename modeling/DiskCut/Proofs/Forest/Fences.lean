import DiskCut.Proofs.Forest.Roots

/-!
# Fences about a forest that grows

A forest grows best first: when a triangle `p` is left, those left before it are a fence.  The
triangles next to these wait at the frontier, and none of them has a higher key than `p`; what is
reached later lies beyond, and a way to it goes through one of them.

* `Fence m keys V r p S`   the set `S` holds `r`, and the triangles next to it have no higher key
                           than `p`
* `Fence.crossed`          a way from `r` to a triangle beyond goes through such a triangle
* `Onward m keys y s s'`   what leaving triangle `y` may add to the growth `s`
* `Climb m keys s r way t` the way from `t` up to its root, with a fence for each triangle on it
* `Fenced.step`, `Fenced.plant`, `Fenced.plantAll`   every triangle reached has such a way
-/

namespace DiskCut
open Std

theorem Frontier.eq_of_key {α : Type} {v w : Frontier α} (hkey : v.key = w.key)
    (htriangle : v.triangle = w.triangle) : v = w := by
  cases v
  cases w
  exact congrArg₂ Frontier.mk hkey htriangle

/-- what leaves the frontier first has no lower key -/
theorem Frontier.key_isLE {α : Type} [Scalar α] [Extended α] {v w : Frontier α}
    (h : (Frontier.order v w).isLE) : (Rank.order w.key v.key).isLE := by
  change ((Rank.order w.key v.key).then (compareOn Frontier.triangle v w)).isLE = true at h
  exact (Ordering.isLE_then_iff_and.mp h).1

/-! ## fences -/

namespace Mesh
variable {α : Type} [Extended α]

/-- the key of `b` is at most that of `p` -/
def KeyLE (keys : Array (Rank α)) (b p : TriangleId) : Prop :=
  ∃ k j, keys[b]? = some k ∧ keys[p]? = some j ∧ (Rank.order k j).isLE

/-- the set `S` holds `r`, and the triangles next to it have no higher key than `p`; all these are
among the triangles `V` -/
structure Fence (m : Mesh α) (keys : Array (Rank α)) (V : TriangleId → Prop) (r p : TriangleId)
    (S : TriangleId → Prop) : Prop where
  root : S r
  inside : ∀ a, S a → V a
  border : ∀ a b, S a → m.Dual a b → ¬ S b → V b ∧ KeyLE keys b p

section
variable {m : Mesh α} {keys : Array (Rank α)} {V S : TriangleId → Prop} {r p t : TriangleId}

theorem Fence.crossed_from (hf : Fence m keys V r p S) (ht : ¬ V t) {mid : List TriangleId} :
    ∀ {a}, S a → List.IsChain m.Dual (a :: (mid ++ [t])) →
      ∃ q ∈ mid, ¬ S q ∧ q ≠ t ∧ KeyLE keys q p := by
  induction mid with
  | nil =>
    intro a ha hchain
    have hat := (List.isChain_cons_cons.mp hchain).1
    exact absurd (hf.border a t ha hat fun hS => ht (hf.inside t hS)).1 ht
  | cons b mid ih =>
    intro a ha hchain
    obtain ⟨hab, hrest⟩ := List.isChain_cons_cons.mp hchain
    by_cases hb : S b
    · obtain ⟨q, hq, hprop⟩ := ih hb hrest
      exact ⟨q, List.mem_cons_of_mem _ hq, hprop⟩
    · obtain ⟨hbV, hle⟩ := hf.border a b ha hab hb
      exact ⟨b, List.mem_cons_self, hb, fun hbt => ht (hbt ▸ hbV), hle⟩

/-- a way from `r` to a triangle beyond goes through a triangle next to the fence -/
theorem Fence.crossed (hf : Fence m keys V r p S) (ht : ¬ V t) {mid : List TriangleId}
    (hchain : List.IsChain m.Dual (r :: (mid ++ [t]))) :
    ∃ q ∈ mid, q ≠ r ∧ q ≠ t ∧ KeyLE keys q p := by
  obtain ⟨q, hq, hout, hqt, hle⟩ := hf.crossed_from ht hf.root hchain
  exact ⟨q, hq, fun hqr => hout (hqr ▸ hf.root), hqt, hle⟩

end

/-! ## what one step adds -/

variable [Scalar α]

def Visited (s : Growth α) (t : TriangleId) : Prop := s.visited[t]? = some true

/-- what a growth is after triangle `y` was left, or a root was entered: new triangles are next to
`y`, and wait under their keys -/
structure Onward (m : Mesh α) (keys : Array (Rank α)) (y : TriangleId) (s s' : Growth α) :
    Prop where
  visited : ∀ t, Visited s t → Visited s' t
  roots : ∀ t ∈ s.roots, t ∈ s'.roots
  parent : ∀ t, Visited s t → s'.parentEdge[t]? = s.parentEdge[t]?
  reached : ∀ (t : TriangleId) (e : EdgeId), s'.parentEdge[t]? = some (some e) →
    s.parentEdge[t]? = some (some e) ∨ ¬ Visited s t ∧ m.Incident e y
  frontier : ∀ w ∈ s'.frontier, w ∈ s.frontier ∨
    ¬ Visited s w.triangle ∧ keys[w.triangle]? = some w.key

section
variable {m : Mesh α} {keys : Array (Rank α)} {s s' s'' : Growth α} {y t : TriangleId} {e : EdgeId}

theorem Onward.refl : Onward m keys y s s :=
  ⟨fun _ ht => ht, fun _ ht => ht, fun _ _ => rfl, fun _ _ he => .inl he, fun _ hw => .inl hw⟩

theorem Onward.trans (h : Onward m keys y s s') (h' : Onward m keys y s' s'') :
    Onward m keys y s s'' where
  visited := fun t ht => h'.visited t (h.visited t ht)
  roots := fun t ht => h'.roots t (h.roots t ht)
  parent := fun t ht => (h'.parent t (h.visited t ht)).trans (h.parent t ht)
  reached := by
    intro t e he
    rcases h'.reached t e he with he | ⟨hnew, hinc⟩
    · exact h.reached t e he
    · exact .inr ⟨fun ht => hnew (h.visited t ht), hinc⟩
  frontier := by
    intro w hw
    rcases h'.frontier w hw with hw | ⟨hnew, hkey⟩
    · exact h.frontier w hw
    · exact .inr ⟨fun ht => hnew (h.visited _ ht), hkey⟩

theorem visited_modify {visited : Array Bool} (u : TriangleId) :
    (visited.modify t fun _ => true)[u]? = some true ↔
      visited[u]? = some true ∨ t = u ∧ t < visited.size := by
  rw [Array.getElem?_modify]
  by_cases htu : t = u
  · subst htu
    rw [if_pos rfl]
    cases hv : visited[t]? with
    | none => simp [Array.getElem?_eq_none_iff.mp hv]
    | some b => simp [(Array.getElem?_eq_some_iff.mp hv).1]
  · rw [if_neg htu]
    simp [htu]

/-- an entry put on the frontier -/
theorem frontier_enter (hok : Growth.enter keys s t = .ok s') :
    ∃ key, keys[t]? = some key ∧ s' = { s with frontier := s.frontier.insert ⟨key, t⟩ } := by
  obtain ⟨key, hkey, hok⟩ := bind_eq_ok_iff.mp hok
  rw [pure_eq_ok_iff] at hok
  exact ⟨key, fetch_eq_ok_iff.mp hkey, hok.symm⟩

theorem not_visited (h : s.visited[t]? = some false) : ¬ Visited s t := by
  intro ht
  rw [Visited, h] at ht
  cases ht

theorem onward_reach (hy : m.Incident e y) (hok : Growth.reach keys e s t = .ok s') :
    Onward m keys y s s' := by
  obtain ⟨seen, hseen, hok⟩ := bind_eq_ok_iff.mp hok
  have hseen := fetch_eq_ok_iff.mp hseen
  cases seen with
  | true =>
    rw [if_pos rfl, pure_eq_ok_iff] at hok
    exact hok ▸ .refl
  | false =>
    obtain ⟨visited, hvisited, hok⟩ := bind_eq_ok_iff.mp hok
    obtain ⟨parentEdge, hparent, hok⟩ := bind_eq_ok_iff.mp hok
    obtain ⟨_, rfl⟩ := alter_eq_ok_iff.mp hvisited
    obtain ⟨_, rfl⟩ := alter_eq_ok_iff.mp hparent
    obtain ⟨key, hkey, rfl⟩ := frontier_enter hok
    have hnew := not_visited hseen
    refine ⟨fun u hu => (visited_modify u).mpr (.inl hu), fun u hu => hu, fun u hu => ?_,
      fun u d hd => ?_, fun w hw => ?_⟩
    · have htu : t ≠ u := fun htu => hnew (htu ▸ hu)
      rw [Array.getElem?_modify, if_neg htu]
    · rw [Array.getElem?_modify] at hd
      by_cases htu : t = u
      · obtain ⟨_, _, hde⟩ := Option.map_eq_some_iff.mp ((if_pos htu).symm.trans hd)
        exact .inr ⟨htu ▸ hnew, Option.some.inj hde ▸ hy⟩
      · exact .inl ((if_neg htu).symm.trans hd)
    · rcases ExtTreeSet.mem_insert.mp hw with heq | hw
      · obtain rfl := LawfulEqCmp.eq_of_compare heq
        exact .inr ⟨hnew, hkey⟩
      · exact .inl hw

theorem onward_cross (hy : m.Incident e y) (hok : Growth.cross m keys s e = .ok s') :
    Onward m keys y s s' := by
  obtain ⟨feature, _, hok⟩ := bind_eq_ok_iff.mp hok
  cases feature with
  | true =>
    rw [if_pos rfl, pure_eq_ok_iff] at hok
    exact hok ▸ .refl
  | false =>
    obtain ⟨ts, _, hok⟩ := bind_eq_ok_iff.mp hok
    exact foldlM_invariant (P := fun x => Onward m keys y s x)
      (fun x t next _ hx hnext => hx.trans (onward_reach hy hnext)) .refl hok

theorem onward_pop {first : Frontier α} {rest : Queue (Frontier α) Frontier.order}
    (hpop : Queue.pop? s.frontier = some (first, rest)) :
    Onward m keys y s { s with frontier := rest } where
  visited := fun _ ht => ht
  roots := fun _ ht => ht
  parent := fun _ _ => rfl
  reached := fun _ _ he => .inl he
  frontier := by
    intro w hw
    have hw : w ∈ rest := hw
    rw [Queue.rest_of_pop? hpop] at hw
    exact .inl (ExtTreeSet.mem_erase.mp hw).2

/-- a step leaves the first triangle of the frontier, and goes on from there -/
theorem onward_step (fit : m.Fitted) (hlt : ∀ w ∈ s.frontier, w.triangle < m.triangles.size)
    (hok : Growth.step m keys s = .ok (some s')) :
    ∃ first rest, Queue.pop? s.frontier = some (first, rest) ∧
      Onward m keys first.triangle { s with frontier := rest } s' := by
  unfold Growth.step at hok
  split at hok
  · cases hok
  · rename_i first rest hpop
    obtain ⟨sides, hsides, hok⟩ := bind_eq_ok_iff.mp hok
    obtain ⟨grown, hgrown, hok⟩ := bind_eq_ok_iff.mp hok
    rw [pure_eq_ok_iff] at hok
    obtain rfl := Option.some.inj hok
    obtain ⟨es, hes, hmem⟩ := fit.sidesOf_ok (hlt first (Queue.mem_of_pop? hpop))
    rw [hsides] at hes
    obtain rfl := Except.ok.inj hes
    exact ⟨first, rest, hpop, foldlM_invariant
      (P := fun x => Onward m keys first.triangle { s with frontier := rest } x)
      (fun x e next he hx hnext => hx.trans (onward_cross ((hmem e).mp he) hnext)) .refl hgrown⟩

end

/-! ## ways with fences -/

/-- the forest as far as it is grown -/
def grownSoFar (s : Growth α) : SpanningForest := ⟨s.candidates, s.parentEdge, s.roots⟩

/-- the triangles `way` lead from `t` to the root `r`, which was left; each of them had a fence
before `t` was visited -/
structure Climb (m : Mesh α) (keys : Array (Rank α)) (s : Growth α) (r : TriangleId)
    (way : List TriangleId) (t : TriangleId) : Prop where
  root : r ∈ s.roots
  visited : Visited s r
  left : ¬ Waits s r
  chain : List.IsChain (m.ParentStep (grownSoFar s)) (t :: (way ++ [r]))
  fence : ∀ p ∈ way, ∃ V S, Fence m keys V r p S ∧ ¬ V t ∧ ∀ a, V a → Visited s a

/-- what waits has its key, and every triangle reached has such a way -/
structure Fenced (m : Mesh α) (keys : Array (Rank α)) (s : Growth α) : Prop where
  keyed : ∀ w ∈ s.frontier, keys[w.triangle]? = some w.key
  way : ∀ (t : TriangleId) (e : EdgeId), s.parentEdge[t]? = some (some e) →
    ∃ r way, Climb m keys s r way t

section
variable {m : Mesh α} {C : EdgeId → Prop} {keys : Array (Rank α)} {h : List Visit}
  {s s' : Growth α} {y r t u : TriangleId} {e : EdgeId} {way : List TriangleId}

theorem Growing.visited_iff (hs : Growing m C h s) : Visited s t ↔ Seen h t := hs.visited t

theorem Growing.visited_of_parent (hs : Growing m C h s)
    (ht : s.parentEdge[t]? = some (some e)) : Visited s t := by
  obtain ⟨x, hx, hxt, _⟩ := (hs.parent t e).mp ht
  exact hs.visited_iff.mpr ⟨x, hx, hxt⟩

/-- a triangle that was visited and not reached is a root -/
theorem Growing.mem_roots (hs : Growing m C h s) (ht : Visited s t)
    (hroot : ∀ e, s.parentEdge[t]? ≠ some (some e)) : t ∈ s.roots := by
  obtain ⟨x, hx, rfl⟩ := hs.visited_iff.mp ht
  rw [hs.roots, List.mem_reverse, List.mem_map]
  refine ⟨x, List.mem_filter.mpr ⟨hx, ?_⟩, rfl⟩
  cases he : x.parent with
  | none => rfl
  | some e => exact absurd ((hs.parent _ e).mpr ⟨x, hx, rfl, he⟩) (hroot e)

theorem Onward.not_waits (hon : Onward m keys y s s') (ht : Visited s t) (hleft : ¬ Waits s t) :
    ¬ Waits s' t := by
  rintro ⟨w, hw, rfl⟩
  rcases hon.frontier w hw with hw | ⟨hnew, _⟩
  · exact hleft ⟨w, hw, rfl⟩
  · exact hnew ht

theorem Onward.parentStep (hs : Growing m C h s) (hon : Onward m keys y s s')
    (hstep : m.ParentStep (grownSoFar s) t u) : m.ParentStep (grownSoFar s') t u := by
  obtain ⟨e, he, hrest⟩ := hstep
  exact ⟨e, (hon.parent t (hs.visited_of_parent he)).trans he, hrest⟩

/-- ways stay -/
theorem Climb.onward (hs : Growing m C h s) (hon : Onward m keys y s s')
    (hway : Climb m keys s r way t) : Climb m keys s' r way t where
  root := hon.roots r hway.root
  visited := hon.visited r hway.visited
  left := hon.not_waits hway.visited hway.left
  chain := hway.chain.imp fun _ _ => hon.parentStep hs
  fence := by
    intro p hp
    obtain ⟨V, S, hfence, ht, hV⟩ := hway.fence p hp
    exact ⟨V, S, hfence, ht, fun a ha => hon.visited a (hV a ha)⟩

theorem Fenced.keyed_onward (hf : Fenced m keys s) (hon : Onward m keys y s s') :
    ∀ w ∈ s'.frontier, keys[w.triangle]? = some w.key :=
  fun w hw => (hon.frontier w hw).elim (hf.keyed w) And.right

/-- the triangles that were left are a fence for the first triangle of the frontier -/
theorem Fenced.fence (hs : Growing m C h s) (hset : m.Settled h s) (hf : Fenced m keys s)
    {first : Frontier α} {rest : Queue (Frontier α) Frontier.order}
    (hpop : Queue.pop? s.frontier = some (first, rest)) (hr : Visited s r) (hleft : ¬ Waits s r) :
    Fence m keys (Visited s) r first.triangle fun a => Visited s a ∧ ¬ Waits s a where
  root := ⟨hr, hleft⟩
  inside := fun _ => And.left
  border := by
    rintro a b ⟨ha, haw⟩ hab hb
    obtain ⟨x, hx, rfl⟩ := hs.visited_iff.mp ha
    have hseen := ((hset x hx).resolve_left haw) b hab
    have hbv := hs.visited_iff.mpr hseen
    obtain ⟨w, hw, rfl⟩ : Waits s b := by
      by_contra hnot
      exact hb ⟨hbv, hnot⟩
    refine ⟨hbv, w.key, first.key, hf.keyed w hw, hf.keyed first (Queue.mem_of_pop? hpop), ?_⟩
    exact Frontier.key_isLE (Queue.isLE_of_pop? hpop hw)

/-- one step: the new triangles are reached from the first triangle of the frontier -/
theorem Fenced.step (fit : m.Fitted) (hs : Growing m C h s) (hset : m.Settled h s)
    (hf : Fenced m keys s) (hok : Growth.step m keys s = .ok (some s')) : Fenced m keys s' := by
  have hlt : ∀ w ∈ s.frontier, w.triangle < m.triangles.size := by
    intro w hw
    obtain ⟨x, hx, hxw⟩ := hs.waits _ ⟨w, hw, rfl⟩
    exact hxw ▸ hs.grown.lt_size fit x hx
  obtain ⟨first, rest, hpop, hgo⟩ := onward_step fit hlt hok
  have hmem := Queue.mem_of_pop? hpop
  have hon : Onward m keys first.triangle s s' := (onward_pop hpop).trans hgo
  have hvisited := hs.visited_iff.mpr (hs.waits _ ⟨first, hmem, rfl⟩)
  have hleft : ¬ Waits s' first.triangle := by
    rintro ⟨w, hw, hwt⟩
    rcases hgo.frontier w hw with hw | ⟨hnew, _⟩
    · rw [Queue.rest_of_pop? hpop] at hw
      obtain ⟨hne, hw⟩ := ExtTreeSet.mem_erase.mp hw
      have hkey := hf.keyed first hmem
      rw [← hwt, hf.keyed w hw] at hkey
      have hself : Frontier.order first w = .eq := by
        rw [Frontier.eq_of_key (Option.some.inj hkey) hwt]
        exact ReflCmp.compare_self
      exact hne hself
    · exact hnew (hwt ▸ hvisited)
  refine ⟨hf.keyed_onward hon, fun t e he => ?_⟩
  rcases hon.reached t e he with he | ⟨hnew, hinc⟩
  · obtain ⟨r, way, hway⟩ := hf.way t e he
    exact ⟨r, way, hway.onward hs hon⟩
  have hne : first.triangle ≠ t := fun heq => hnew (heq ▸ hvisited)
  have hstep : m.ParentStep (grownSoFar s') t first.triangle := ⟨e, he, hinc, hne⟩
  by_cases hparent : ∃ d, s.parentEdge[first.triangle]? = some (some d)
  · -- the way to the new triangle is one longer than that to the triangle just left
    obtain ⟨d, hd⟩ := hparent
    obtain ⟨r, way, hway⟩ := hf.way _ d hd
    have hway' := hway.onward hs hon
    refine ⟨r, first.triangle :: way, hway'.root, hway'.visited, hway'.left,
      .cons_cons hstep hway'.chain, ?_⟩
    rw [List.forall_mem_cons]
    refine ⟨⟨_, _, hf.fence hs hset hpop hway.visited hway.left, hnew, hon.visited⟩, ?_⟩
    intro p hp
    obtain ⟨V, S, hfence, _, hV⟩ := hway.fence p hp
    exact ⟨V, S, hfence, fun ht => hnew (hV t ht), fun a ha => hon.visited a (hV a ha)⟩
  · have hroot := hs.mem_roots hvisited (not_exists.mp hparent)
    exact ⟨first.triangle, [], hon.roots _ hroot, hon.visited _ hvisited, hleft,
      .cons_cons hstep (.singleton _), nofun⟩

/-- a root is entered -/
theorem Fenced.enter (hs : Growing m C h s) (hf : Fenced m keys s)
    (hnew : s.visited[t]? = some false) (hok : Growth.enter keys { s with
      visited := s.visited.modify t fun _ => true, roots := s.roots ++ [t] } t = .ok s') :
    Fenced m keys s' := by
  obtain ⟨key, hkey, rfl⟩ := frontier_enter hok
  have hon : Onward m keys t s ⟨s.visited.modify t fun _ => true, s.parentEdge, s.candidates,
      s.roots ++ [t], s.frontier.insert ⟨key, t⟩⟩ := by
    refine ⟨fun u hu => (visited_modify u).mpr (.inl hu), fun u hu => List.mem_append_left _ hu,
      fun _ _ => rfl, fun _ _ he => .inl he, fun w hw => ?_⟩
    rcases ExtTreeSet.mem_insert.mp hw with heq | hw
    · obtain rfl := LawfulEqCmp.eq_of_compare heq
      exact .inr ⟨not_visited hnew, hkey⟩
    · exact .inl hw
  refine ⟨hf.keyed_onward hon, fun u e he => ?_⟩
  obtain ⟨r, way, hway⟩ := hf.way u e he
  exact ⟨r, way, hway.onward hs hon⟩

/-- a tree is planted -/
theorem Fenced.plant (fit : m.Fitted) (hkeys : keys.size = m.triangles.size)
    (hs : Rested m C h s) (ht : t < m.triangles.size) (hf : Fenced m keys s)
    (hok : Growth.plant m keys s t = .ok s') : Fenced m keys s' := by
  obtain ⟨seen, hseen, hok⟩ := bind_eq_ok_iff.mp hok
  have hseen := fetch_eq_ok_iff.mp hseen
  cases seen with
  | true =>
    rw [if_pos rfl, pure_eq_ok_iff] at hok
    exact hok ▸ hf
  | false =>
    obtain ⟨visited, hvisited, hok⟩ := bind_eq_ok_iff.mp hok
    obtain ⟨_, rfl⟩ := alter_eq_ok_iff.mp hvisited
    obtain ⟨planted, hplanted, hok⟩ := bind_eq_ok_iff.mp hok
    have hnew : ¬ Seen h t := fun hold => not_visited hseen (hs.visited_iff.mpr hold)
    obtain ⟨planted', hplanted', hgrow, hwaits, _⟩ := hs.enter hkeys ht hnew
    rw [hplanted] at hplanted'
    obtain rfl := Except.ok.inj hplanted'
    have hset : m.Settled (⟨t, t, none⟩ :: h) planted := by
      intro x hx
      rcases List.mem_cons.mp hx with rfl | hx
      · exact .inl hwaits
      · exact .inr fun u hu => (hs.closed x hx u hu).cons
    refine (repeatWhile_invariant (P := fun x => (∃ h, Growing m C h x ∧ m.Settled h x) ∧
      Fenced m keys x) ?_ ⟨⟨_, hgrow, hset⟩, hf.enter hs.toGrowing hseen hplanted⟩ hok).1.2
    rintro x next ⟨⟨h', hx, hset'⟩, hfx⟩ hnext
    refine ⟨?_, hfx.step fit hx hset' hnext⟩
    rcases hx.step fit hkeys hset' with ⟨_, hnone⟩ | ⟨h'', next', hnext', hgrown, hset'', _⟩
    · rw [hnext] at hnone
      cases hnone
    · rw [hnext] at hnext'
      obtain rfl := Option.some.inj (Except.ok.inj hnext')
      exact ⟨h'', hgrown, hset''⟩

theorem Fenced.plantAll (fit : m.Fitted) (hkeys : keys.size = m.triangles.size)
    (hs : Rested m C [] s) (hf : Fenced m keys s)
    (hok : (List.range m.triangles.size).foldlM (Growth.plant m keys) s = .ok s') :
    Fenced m keys s' := by
  refine (foldlM_invariant (P := fun x => (∃ h, Rested m C h x) ∧ Fenced m keys x) ?_
    ⟨⟨_, hs⟩, hf⟩ hok).2
  rintro x t next ht ⟨⟨h', hx⟩, hfx⟩ hnext
  have ht := List.mem_range.mp ht
  obtain ⟨h'', next', hnext', hrest, _⟩ := hx.plant fit hkeys ht
  rw [hnext] at hnext'
  obtain rfl := Except.ok.inj hnext'
  exact ⟨⟨h'', hrest⟩, hfx.plant fit hkeys hx ht hnext⟩

end

end Mesh
end DiskCut
