import DiskCut.Proofs.Distance.Ranged
import DiskCut.Proofs.Distance.Lengths

/-!
# The distance search finds the nearest source

* `Reaches R cap S v d`   a path along the roads `R` from a source to `v` adds up to `d`, with no part
                          of it longer than the cap
* `Nearest R cap S v d`   `d` is the least such value, or infinite when there is none
* `Searching …`           what the search knows after some vertices are settled and some roads passed
* `Takes …`               a step that settles a vertex not settled before, or drops a stale arrival
* `Searching.step`        every step is one
* `EdgeGraph.distancesFrom_nearest`  so the bound on the steps is never reached, and every distance is
                          that of the nearest source
* `EdgeGraph.distancesFrom_ok`   in particular the search comes to its end on every mesh

Rounding is the reason to speak of values that paths add up to instead of sums: a path adds up from
its source on, each road to the value so far.
-/

namespace DiskCut
open Std Finset
variable {α : Type} [Scalar α] [Extended α]

/-! ## paths and the values they add up to -/

/-- a path along `R` from a vertex in `S` to a vertex adds up to a value; it is finite and not beyond
the cap, and so are the values on the way -/
inductive Reaches (R : VertexId → VertexId → α → Prop) (cap : Option α) (S : VertexId → Prop) :
    VertexId → α → Prop
  | source {v : VertexId} : S v → Reaches R cap S v 0.0
  | extend {u w : VertexId} {d l : α} : Reaches R cap S u d → R u w l →
      Search.beyond cap (d + l) = false → d + l < Extended.infinity → Reaches R cap S w (d + l)

/-- the least value that a path to `v` adds up to, infinite without a path -/
structure Nearest (R : VertexId → VertexId → α → Prop) (cap : Option α) (S : VertexId → Prop)
    (v : VertexId) (d : α) : Prop where
  least : ∀ d', Reaches R cap S v d' → NoMore d d'
  attained : d = Extended.infinity ∨ Reaches R cap S v d

/-- every road has a length, or its length is not a number -/
def Measured (R : VertexId → VertexId → α → Prop) : Prop :=
  ∀ (u w : VertexId) (l : α), R u w l → IsLength l ∨ ∀ x y : α, ¬ x + l < y

section
variable [LawfulLengths α] {R : VertexId → VertexId → α → Prop} {cap : Option α}
  {S : VertexId → Prop} {u v w : VertexId} {d d' l : α}

theorem measured_of_norms (norms : ∀ u w l, R u w l → ∃ p : Vec3 α, p.norm = l) : Measured R := by
  intro u w l hroad
  obtain ⟨p, rfl⟩ := norms u w l hroad
  exact LawfulLengths.norm_cases p

omit [LawfulLengths α] in
theorem Measured.isLength (h : Measured R) (hroad : R u w l) {x y : α} (hlt : x + l < y) :
    IsLength l :=
  (h u w l hroad).resolve_right fun hnot => hnot x y hlt

omit [LawfulLengths α] in
theorem Reaches.exists_source (h : Reaches R cap S v d) : ∃ u, S u := by
  induction h with
  | source hv => exact ⟨_, hv⟩
  | extend _ _ _ _ ih => exact ih

theorem Reaches.isLength (measured : Measured R) (h : Reaches R cap S v d) : IsLength d := by
  induction h with
  | source _ => exact isLength_zero
  | extend _ hroad _ hlt ih => exact ih.add (measured.isLength hroad hlt)

theorem Nearest.isLength (measured : Measured R) (h : Nearest R cap S v d) : IsLength d := by
  rcases h.attained with rfl | hd
  · exact isLength_infinity
  · exact hd.isLength measured

theorem Nearest.unique (measured : Measured R) (h : Nearest R cap S v d)
    (h' : Nearest R cap S v d') : d = d' := by
  rcases h.attained with rfl | hd
  · rcases h'.attained with rfl | hd'
    · rfl
    · exact (h.least _ hd').antisymm (h'.isLength measured).noMore_infinity
  · rcases h'.attained with rfl | hd'
    · exact NoMore.antisymm (h.isLength measured).noMore_infinity (h'.least _ hd)
    · exact (h.least _ hd').antisymm (h'.least _ hd)

end

/-! ## what the search knows -/

namespace Search

/-- the label of a vertex -/
def label (s : Search α) (v : VertexId) : α := s.distances[v]?.getD Extended.infinity

/-- the roads as a relation -/
def Road (roads : Roads α) (u w : VertexId) (l : α) : Prop := (w, l) ∈ ahead roads u

/-- the road from a vertex with the label `d` cannot shorten the path to its end -/
def Passed (cap : Option α) (s : Search α) (d : α) (road : VertexId × α) : Prop :=
  beyond cap (d + road.2) = false → d + road.2 < Extended.infinity →
    NoMore (s.label road.1) (d + road.2)

/-- the state of a search between two roads: the vertices `settled` were taken from the queue, the
last one with the value `far`, and the roads `passed u` of each were passed -/
structure Searching (roads : Roads α) (cap : Option α) (S : VertexId → Prop) (n : Nat)
    (settled : Finset Nat) (passed : VertexId → List (VertexId × α)) (far : α)
    (s : Search α) : Prop where
  ranged : Ranged n s
  label : ∀ v, s.label v = Extended.infinity ∨ Reaches (Road roads) cap S v (s.label v)
  source : ∀ v, S v → NoMore (s.label v) 0.0
  arrival : ∀ a ∈ s.queue, Reaches (Road roads) cap S a.vertex a.distance
  ahead : ∀ a ∈ s.queue, NoMore far a.distance
  above : ∀ a ∈ s.queue, NoMore (s.label a.vertex) a.distance
  stale : ∀ a ∈ s.queue, a.vertex ∈ settled → s.label a.vertex ≠ a.distance
  behind : ∀ v ∈ settled, NoMore (s.label v) far
  waits : ∀ v, s.label v = Extended.infinity ∨ v ∈ settled ∨ ⟨s.label v, v⟩ ∈ s.queue
  passed : ∀ u ∈ settled, ∀ road ∈ passed u, Passed cap s (s.label u) road

section
variable {n : Nat} {s : Search α} {roads : Roads α} {cap : Option α} {S : VertexId → Prop}
  {settled : Finset Nat} {passed : VertexId → List (VertexId × α)} {far : α}
  {u v w : VertexId} {r : α}

theorem label_of_lt (h : v < s.distances.size) : s.label v = s.distances[v] := by
  unfold label
  rw [Array.getElem?_eq_getElem h]
  rfl

theorem label_shortened (hlt : v < s.distances.size) :
    (s.shortened v r).label w = if v = w then r else s.label w := by
  unfold label shortened
  rw [Array.getElem?_modify]
  by_cases hvw : v = w
  · subst hvw
    rw [if_pos rfl, if_pos rfl, Array.getElem?_eq_getElem hlt]
    rfl
  · rw [if_neg hvw, if_neg hvw]

/-- labels only go down -/
theorem noMore_label_shortened (hlt : w < s.distances.size) (hle : NoMore r (s.label w))
    (v : VertexId) : NoMore ((s.shortened w r).label v) (s.label v) := by
  rw [label_shortened hlt]
  split
  · rename_i hwv
    exact hwv ▸ hle
  · exact .refl _

theorem mem_queue_shortened {a : Arrival α} :
    a ∈ (s.shortened v r).queue ↔ ⟨r, v⟩ = a ∨ a ∈ s.queue := by
  show a ∈ s.queue.insert ⟨r, v⟩ ↔ _
  rw [ExtTreeSet.mem_insert, LawfulEqCmp.compare_eq_iff_eq]

variable [LawfulLengths α] (measured : Measured (Road roads))
include measured

theorem Searching.isLength (h : Searching roads cap S n settled passed far s) (v : VertexId) :
    IsLength (s.label v) := by
  rcases h.label v with hinf | hv
  · rw [hinf]
    exact isLength_infinity
  · exact hv.isLength measured

/-! ## one road -/

omit measured [LawfulLengths α] in
/-- one more road passed that shortens nothing -/
theorem Searching.pass (h : Searching roads cap S n settled passed far s)
    {road : VertexId × α} (hroad : Passed cap s (s.label u) road) :
    Searching roads cap S n settled (Function.update passed u (passed u ++ [road])) far s :=
  { h with
    passed := by
      intro v hv road' hmem
      by_cases hvu : v = u
      · subst hvu
        rw [Function.update_self] at hmem
        rcases List.mem_append.mp hmem with hmem | hmem
        · exact h.passed v hv road' hmem
        · rw [List.mem_singleton.mp hmem]
          exact hroad
      · rw [Function.update_of_ne hvu] at hmem
        exact h.passed v hv road' hmem }

/-- a shorter path found, which is to a vertex that is not settled -/
theorem Searching.shorten (h : Searching roads cap S n settled passed far s)
    (hw : w < n) (hreach : Reaches (Road roads) cap S w r) (hfar : NoMore far r)
    (hlt : r < s.label w) : Searching roads cap S n settled passed far (s.shortened w r) ∧
      ∀ v ∈ settled, (s.shortened w r).label v = s.label v := by
  have hr := hreach.isLength measured
  have hless := hr.not_noMore_of_lt (h.isLength measured w) hlt
  have hsize : w < s.distances.size := h.ranged.size.symm ▸ hw
  have hnot : w ∉ settled := fun hmem => hless ((h.behind w hmem).trans hfar)
  have hlabel : ∀ v, (s.shortened w r).label v = if w = v then r else s.label v :=
    fun v => label_shortened hsize
  have hdown := noMore_label_shortened hsize (hr.noMore_of_lt (h.isLength measured w) hlt)
  have hsettled : ∀ v ∈ settled, (s.shortened w r).label v = s.label v := by
    intro v hv
    have hne : w ≠ v := by
      rintro rfl
      exact hnot hv
    rw [hlabel, if_neg hne]
  refine ⟨?_, hsettled⟩
  exact {
    ranged := h.ranged.shortened hw r
    label := by
      intro v
      rw [hlabel]
      split
      · rename_i hwv
        exact .inr (hwv ▸ hreach)
      · exact h.label v
    source := fun v hv => (hdown v).trans (h.source v hv)
    arrival := by
      intro a ha
      rcases mem_queue_shortened.mp ha with rfl | ha
      · exact hreach
      · exact h.arrival a ha
    ahead := by
      intro a ha
      rcases mem_queue_shortened.mp ha with rfl | ha
      · exact hfar
      · exact h.ahead a ha
    above := by
      intro a ha
      rcases mem_queue_shortened.mp ha with rfl | ha
      · rw [hlabel, if_pos rfl]
        exact .refl r
      · exact (hdown a.vertex).trans (h.above a ha)
    stale := by
      intro a ha hmem
      rw [hsettled _ hmem]
      rcases mem_queue_shortened.mp ha with rfl | ha
      · exact absurd hmem hnot
      · exact h.stale a ha hmem
    behind := by
      intro v hv
      rw [hsettled v hv]
      exact h.behind v hv
    waits := by
      intro v
      rw [hlabel, mem_queue_shortened]
      split
      · rename_i hwv
        subst hwv
        exact .inr (.inr (.inl rfl))
      · exact (h.waits v).imp id (Or.imp id .inr)
    passed := by
      intro v hv road hmem
      rw [hsettled v hv]
      intro hwithin hfinite
      exact (hdown road.1).trans (h.passed v hv road hmem hwithin hfinite) }

/-- a road tried from the vertex settled last; settled vertices keep their labels -/
theorem Searching.relax (h : Searching roads cap S n settled passed far s) (hu : u ∈ settled)
    (hfar : s.label u = far) (hreach : Reaches (Road roads) cap S u far)
    {road : VertexId × α} (hroad : Road roads u road.1 road.2) (hlt : road.1 < n) :
    ∃ next, relax cap far s road = .ok next ∧ (∀ v ∈ settled, next.label v = s.label v) ∧
      next.queue.size ≤ s.queue.size + 1 ∧
      Searching roads cap S n settled (Function.update passed u (passed u ++ [road])) far next := by
  have hsize : road.1 < s.distances.size := h.ranged.size.symm ▸ hlt
  rcases relax_cases cap far hsize with ⟨hno, hok⟩ | ⟨hwithin, hless, hok⟩
  · refine ⟨s, hok, fun _ _ => rfl, Nat.le_succ _, h.pass fun hwithin hfinite => ?_⟩
    rw [hfar] at hwithin hfinite ⊢
    have hl := measured.isLength hroad hfinite
    have hnot : ¬ far + road.2 < s.distances[road.1] :=
      hno.resolve_left (by rw [hwithin]; exact Bool.false_ne_true)
    rw [← label_of_lt hsize] at hnot
    exact ((hreach.isLength measured).add hl).noMore_of_not_lt (h.isLength measured _) hnot
  · have hl := measured.isLength hroad hless
    rw [← label_of_lt hsize] at hless
    have hfinite : far + road.2 < Extended.infinity :=
      LawfulLengths.lt_of_lt_of_noMore (h.isLength measured _) isLength_infinity hless
        (h.isLength measured _).noMore_infinity
    have hgrow := LawfulLengths.noMore_add (hreach.isLength measured) hl
    obtain ⟨hnext, hkept⟩ :=
      h.shorten measured hlt (hreach.extend hroad hwithin hfinite) hgrow hless
    refine ⟨_, hok, hkept, ExtTreeSet.size_insert_le, hnext.pass fun _ _ => ?_⟩
    rw [hkept u hu, hfar, label_shortened hsize, if_pos rfl]
    exact .refl _

/-- all roads at this vertex tried -/
theorem Searching.relaxAll (h : Searching roads cap S n settled (Function.update passed u []) far s)
    (hu : u ∈ settled) (hfar : s.label u = far) (hreach : Reaches (Road roads) cap S u far)
    (across : ∀ road ∈ DiskCut.ahead roads u, road.1 < n) :
    ∃ next, (DiskCut.ahead roads u).foldlM (Search.relax cap far) s = .ok next ∧
      (∀ v ∈ settled, next.label v = s.label v) ∧
      next.queue.size ≤ s.queue.size + (DiskCut.ahead roads u).length ∧
      Searching roads cap S n settled (Function.update passed u (DiskCut.ahead roads u)) far
        next := by
  have keep : ∀ pre road post (s' : Search α), DiskCut.ahead roads u = pre ++ road :: post →
      ((∀ v ∈ settled, s'.label v = s.label v) ∧ s'.queue.size ≤ s.queue.size + pre.length ∧
        Searching roads cap S n settled (Function.update passed u pre) far s') →
      ∃ next, Search.relax cap far s' road = .ok next ∧
        (∀ v ∈ settled, next.label v = s.label v) ∧
        next.queue.size ≤ s.queue.size + (pre ++ [road]).length ∧
        Searching roads cap S n settled (Function.update passed u (pre ++ [road])) far next := by
    intro pre road post s' hsplit ⟨hkept, hsize, hs'⟩
    have hmem : road ∈ DiskCut.ahead roads u := by
      rw [hsplit]
      simp
    obtain ⟨next, hok, hkept', hsize', hnext⟩ :=
      hs'.relax measured hu ((hkept u hu).trans hfar) hreach hmem (across road hmem)
    rw [Function.update_self, Function.update_idem] at hnext
    refine ⟨next, hok, fun v hv => (hkept' v hv).trans (hkept v hv), ?_, hnext⟩
    rw [List.length_append, List.length_singleton]
    omega
  exact foldlM_total keep ⟨fun _ _ => rfl, Nat.le_refl _, h⟩

/-! ## one arrival -/

/-- the arrival that the next step takes, and whether its vertex has no shorter label by now -/
def taken (s : Search α) : List (Arrival α × Bool) :=
  (Queue.first? s.queue).toList.map fun a => (a, !decide (s.label a.vertex < a.distance))

omit measured [LawfulLengths α] in
theorem taken_of_pop? {a : Arrival α} {rest : Queue (Arrival α) Arrival.order}
    (hpop : Queue.pop? s.queue = some (a, rest)) :
    s.taken = [(a, !decide (s.label a.vertex < a.distance))] := by
  unfold taken
  rw [Queue.first?_eq_min?, Queue.min?_of_pop? hpop]
  rfl

/-- the arrivals that wait, and the roads of the vertices that are not settled yet -/
def pending (roads : Roads α) (n : Nat) (settled : Finset Nat) (s : Search α) : Nat :=
  s.queue.size + ∑ v ∈ range n \ settled, (DiskCut.ahead roads v).length

/-- a stale arrival dropped -/
theorem Searching.drop (h : Searching roads cap S n settled passed far s) {a : Arrival α}
    (ha : a ∈ s.queue) (hstale : s.label a.vertex < a.distance)
    (hmin : ∀ b ∈ s.queue, NoMore a.distance b.distance) :
    Searching roads cap S n settled passed a.distance { s with queue := s.queue.erase a } := by
  have hmem : ∀ {b : Arrival α}, b ∈ s.queue.erase a → b ∈ s.queue :=
    fun hb => ExtTreeSet.mem_of_mem_erase hb
  exact {
    ranged := ⟨h.ranged.size, fun b hb => h.ranged.queue b (hmem hb)⟩
    label := h.label
    source := h.source
    arrival := fun b hb => h.arrival b (hmem hb)
    ahead := fun b hb => hmin b (hmem hb)
    above := fun b hb => h.above b (hmem hb)
    stale := fun b hb => h.stale b (hmem hb)
    behind := fun v hv => (h.behind v hv).trans (h.ahead a ha)
    waits := by
      intro v
      refine (h.waits v).imp id (Or.imp id fun hv => ?_)
      refine ExtTreeSet.mem_erase.mpr ⟨?_, hv⟩
      -- the arrival with the label itself is not stale
      intro heq
      rw [LawfulEqCmp.eq_of_compare heq] at hstale
      exact (h.isLength measured v).not_noMore_of_lt (h.isLength measured v) hstale (.refl _)
    passed := h.passed }

omit [LawfulLengths α] measured in
/-- a vertex settled, none of its roads passed yet -/
theorem Searching.settle (h : Searching roads cap S n settled (DiskCut.ahead roads) far s)
    {a : Arrival α} (ha : a ∈ s.queue) (hfresh : s.label a.vertex = a.distance)
    (hmin : ∀ b ∈ s.queue, NoMore a.distance b.distance) :
    Searching roads cap S n (insert a.vertex settled)
      (Function.update (DiskCut.ahead roads) a.vertex []) a.distance
      { s with queue := s.queue.erase a } := by
  have hmem : ∀ {b : Arrival α}, b ∈ s.queue.erase a → b ∈ s.queue :=
    fun hb => ExtTreeSet.mem_of_mem_erase hb
  have hne : ∀ {b : Arrival α}, b ∈ s.queue.erase a → b ≠ a := by
    intro b hb heq
    subst heq
    exact (ExtTreeSet.mem_erase.mp hb).1 ReflCmp.compare_self
  exact {
    ranged := ⟨h.ranged.size, fun b hb => h.ranged.queue b (hmem hb)⟩
    label := h.label
    source := h.source
    arrival := fun b hb => h.arrival b (hmem hb)
    ahead := fun b hb => hmin b (hmem hb)
    above := fun b hb => h.above b (hmem hb)
    stale := by
      intro b hb hset heq
      rcases mem_insert.mp hset with hv | hset
      · refine hne hb ?_
        obtain ⟨d, v⟩ := b
        obtain ⟨d', v'⟩ := a
        subst hv
        exact congrArg (Arrival.mk · v) (heq.symm.trans hfresh)
      · exact h.stale b (hmem hb) hset heq
    behind := by
      intro v hv
      rcases mem_insert.mp hv with rfl | hv
      · show NoMore (s.label a.vertex) _
        rw [hfresh]
        exact .refl _
      · exact (h.behind v hv).trans (h.ahead a ha)
    waits := by
      intro v
      rcases h.waits v with hinf | hset | hv
      · exact .inl hinf
      · exact .inr (.inl (mem_insert_of_mem hset))
      · by_cases hva : a.vertex = v
        · exact .inr (.inl (hva ▸ mem_insert_self _ _))
        · refine .inr (.inr (ExtTreeSet.mem_erase.mpr ⟨fun heq => hva ?_, hv⟩))
          rw [LawfulEqCmp.eq_of_compare heq]
    passed := by
      intro v hv road hroad
      by_cases hva : v = a.vertex
      · rw [hva, Function.update_self] at hroad
        cases hroad
      · rw [Function.update_of_ne hva] at hroad
        exact h.passed v (mem_of_mem_insert_of_ne hv hva) road hroad }

/-- the step from `s` to `next` takes the arrival `a`; when that is fresh its vertex gets settled, with
the label that it has -/
structure Takes (roads : Roads α) (cap : Option α) (S : VertexId → Prop) (n : Nat)
    (settled : Finset Nat) (s : Search α) (a : Arrival α) (fresh : Bool) (next : Search α) : Prop where
  step : s.step roads cap = .ok (some next)
  taken : s.taken = [(a, fresh)]
  mem : a ∈ s.queue
  searching : Searching roads cap S n (if fresh then insert a.vertex settled else settled)
    (DiskCut.ahead roads) a.distance next
  less : pending roads n (if fresh then insert a.vertex settled else settled) next
    < pending roads n settled s
  kept : ∀ v ∈ settled, next.label v = s.label v
  settles : fresh = true → a.vertex ∉ settled ∧ s.label a.vertex = a.distance ∧
    next.label a.vertex = a.distance

/-- a step settles one more vertex or drops a stale arrival, unless nothing waits any more -/
theorem Searching.step (h : Searching roads cap S n settled (DiskCut.ahead roads) far s)
    (size : roads.size = n) (across : ∀ v, ∀ road ∈ DiskCut.ahead roads v, road.1 < n) :
    (s.queue = ∅ ∧ s.step roads cap = .ok none) ∨
      ∃ a fresh next, Takes roads cap S n settled s a fresh next := by
  cases hpop : Queue.pop? s.queue with
  | none =>
    have hempty := Queue.pop?_eq_none_iff.mp hpop
    exact .inl ⟨hempty, step_of_empty hempty⟩
  | some x =>
    obtain ⟨a, rest⟩ := x
    have ha := Queue.mem_of_pop? hpop
    obtain rfl := Queue.rest_of_pop? hpop
    have hn := h.ranged.queue a ha
    have hlt : a.vertex < s.distances.size := h.ranged.size.symm ▸ hn
    have hcount := size_erase_add_one ha
    have hdistance := (h.arrival a ha).isLength measured
    have hmin : ∀ b ∈ s.queue, NoMore a.distance b.distance := by
      intro b hb
      have hle := Queue.isLE_of_pop? hpop hb
      exact Ordering.isLE_left_of_isLE_then hle
    by_cases hstale : s.label a.vertex < a.distance
    · refine .inr ⟨a, false, _, {
        step := step_of_stale hpop hlt (label_of_lt hlt ▸ hstale)
        taken := by rw [taken_of_pop? hpop, decide_eq_true hstale]; rfl
        mem := ha
        searching := h.drop measured ha hstale hmin
        less := ?_
        kept := fun _ _ => rfl
        settles := nofun }⟩
      unfold pending
      show (s.queue.erase a).size + _ < s.queue.size + _
      simp only [Bool.false_eq_true, if_false]
      omega
    · have hfresh : s.label a.vertex = a.distance :=
        (h.above a ha).antisymm ((h.isLength measured _).noMore_of_not_lt hdistance hstale)
      have hnew : a.vertex ∉ settled := fun hset => h.stale a ha hset hfresh
      obtain ⟨next, hok, hkept, hsize, hnext⟩ := (h.settle ha hfresh hmin).relaxAll measured
        (mem_insert_self _ _) hfresh (h.arrival a ha) (across a.vertex)
      rw [Function.update_eq_self] at hnext
      refine .inr ⟨a, true, next, {
        step := ?_
        taken := by rw [taken_of_pop? hpop, decide_eq_false hstale]; rfl
        mem := ha
        searching := hnext
        less := ?_
        kept := fun v hv => hkept v (mem_insert_of_mem hv)
        settles := fun _ => ⟨hnew, hfresh, (hkept _ (mem_insert_self _ _)).trans hfresh⟩ }⟩
      · rw [label_of_lt hlt] at hstale
        rw [step_of_fresh hpop hlt hstale (size.symm ▸ hn), hok]
        rfl
      · have hmem : a.vertex ∈ range n \ settled := by
          rw [mem_sdiff, mem_range]
          exact ⟨hn, hnew⟩
        have hsum : (DiskCut.ahead roads a.vertex).length
            + ∑ v ∈ range n \ insert a.vertex settled, (DiskCut.ahead roads v).length
            = ∑ v ∈ range n \ settled, (DiskCut.ahead roads v).length := by
          rw [sdiff_insert]
          exact add_sum_erase (range n \ settled) (fun v => (DiskCut.ahead roads v).length) hmem
        have hrest : ({ s with queue := s.queue.erase a } : Search α).queue.size
            = (s.queue.erase a).size := rfl
        unfold pending
        simp only [if_true]
        omega

/-! ## the whole search -/

/-- when nothing waits, all labels are the least values of paths -/
theorem Searching.nearest (h : Searching roads cap S n settled (DiskCut.ahead roads) far s)
    (hempty : s.queue = ∅) (v : VertexId) : Nearest (Road roads) cap S v (s.label v) where
  least := by
    intro d hreach
    induction hreach with
    | source hv => exact h.source _ hv
    | @extend u w d l hu hroad hwithin hfinite ih =>
      have hl := measured.isLength hroad hfinite
      have hd := hu.isLength measured
      have hlabel := h.isLength measured u
      have hsum := LawfulLengths.add_noMore_add hlabel hd hl ih
      rcases h.waits u with hinf | hset | hwait
      · -- a label above a finite value is finite
        rw [hinf] at ih
        exact absurd (ih.trans (LawfulLengths.noMore_add hd hl))
          ((hd.add hl).not_noMore_of_lt isLength_infinity hfinite)
      · have hpassed := h.passed u hset (w, l) hroad
        have hwithin' := beyond_mono (hlabel.add hl) (hd.add hl) hsum hwithin
        have hfinite' := (hlabel.add hl).lt_of_noMore_of_lt (hd.add hl) isLength_infinity hsum hfinite
        exact (hpassed hwithin' hfinite').trans hsum
      · rw [hempty] at hwait
        exact absurd hwait ExtTreeSet.not_mem_empty
  attained := h.label v

end

omit [Extended α] in
theorem getElem?_zeroed {v : VertexId} (sources : List VertexId) (labels : Array α) :
    (sources.foldl (·.setIfInBounds · 0.0) labels)[v]?
      = if v ∈ sources ∧ v < labels.size then some 0.0 else labels[v]? := by
  induction sources generalizing labels with
  | nil => simp
  | cons w sources ih =>
    rw [List.foldl_cons, ih, Array.size_setIfInBounds, Array.getElem?_setIfInBounds]
    by_cases hwv : w = v
    · subst hwv
      by_cases hlt : w < labels.size <;> simp [hlt]
    · have hvw : v ≠ w := fun heq => hwv heq.symm
      simp [hwv, hvw]

section
variable {n : Nat} {roads : Roads α} {cap : Option α} {sources : List VertexId}
  (hlt : ∀ v ∈ sources, v < n)
include hlt

theorem label_start (v : VertexId) :
    (start n sources : Search α).label v = if v ∈ sources then 0.0 else Extended.infinity := by
  unfold label start
  rw [getElem?_zeroed, List.size_toArray, List.length_replicate, List.getElem?_toArray,
    List.getElem?_replicate]
  by_cases hv : v ∈ sources
  · rw [if_pos ⟨hv, hlt v hv⟩, if_pos hv]
    rfl
  · rw [if_neg fun h => hv h.1, if_neg hv]
    split <;> rfl

theorem searching_start [LawfulLengths α] :
    Searching roads cap (· ∈ sources) n ∅ (ahead roads) 0.0 (start n sources) where
  ranged := ranged_start hlt
  label := by
    intro v
    rw [label_start hlt]
    split
    · rename_i hv
      exact .inr (.source hv)
    · exact .inl rfl
  source := by
    intro v hv
    rw [label_start hlt, if_pos hv]
    exact .refl _
  arrival := by
    intro a ha
    obtain ⟨hd, hv⟩ := mem_start.mp ha
    rw [hd]
    exact .source hv
  ahead := by
    intro a ha
    rw [(mem_start.mp ha).1]
    exact .refl _
  above := by
    intro a ha
    obtain ⟨hd, hv⟩ := mem_start.mp ha
    rw [label_start hlt, if_pos hv, hd]
    exact .refl _
  stale := fun _ _ hmem => absurd hmem (notMem_empty _)
  behind := fun _ hmem => absurd hmem (notMem_empty _)
  waits := by
    intro v
    rw [label_start hlt]
    split
    · rename_i hv
      exact .inr (.inr (mem_start.mpr ⟨rfl, hv⟩))
    · exact .inl rfl
  passed := fun _ hmem => absurd hmem (notMem_empty _)

omit hlt in
theorem pending_start (n : Nat) (roads : Roads α) (sources : List VertexId) :
    pending roads n ∅ (start n sources) ≤
      sources.length + ∑ v ∈ range n, (ahead roads v).length := by
  have hqueue : (start n sources : Search α).queue.size ≤ sources.length := by
    unfold start
    refine ExtTreeSet.size_ofList_le.trans ?_
    rw [List.length_map]
  unfold pending
  rw [sdiff_empty]
  omega

/-- a search that may take a step for each source and for each road comes to an end -/
theorem run_completes [LawfulLengths α] (cap : Option α) (measured : Measured (Road roads))
    (size : roads.size = n) (across : ∀ v, ∀ road ∈ ahead roads v, road.1 < n) (bound : Nat)
    (below : sources.length + ∑ v ∈ range n, (ahead roads v).length < bound) :
    ∃ (last : Search α) (settled : Finset Nat) (far : α),
      repeatWhile (step roads cap) bound (start n sources) = .ok last ∧
      Searching roads cap (· ∈ sources) n settled (ahead roads) far last ∧ last.queue = ∅ := by
  have progress : ∀ k (s : Search α),
      (∃ settled far, Searching roads cap (· ∈ sources) n settled (ahead roads) far s ∧
        pending roads n settled s = k) →
      (s.queue = ∅ ∧ s.step roads cap = .ok none) ∨
      ∃ next k', s.step roads cap = .ok (some next) ∧ k' < k ∧
        ∃ settled far, Searching roads cap (· ∈ sources) n settled (ahead roads) far next ∧
          pending roads n settled next = k' := by
    intro k s ⟨settled, far, hs, hk⟩
    rcases hs.step measured size across with hdone | ⟨a, fresh, next, htakes⟩
    · exact .inl hdone
    · exact .inr ⟨next, _, htakes.step, hk ▸ htakes.less, _, a.distance, htakes.searching, rfl⟩
  obtain ⟨last, _, hlast, ⟨settled, far, hs, _⟩, hempty⟩ :=
    repeatWhile_spec progress ⟨∅, 0.0, searching_start hlt, rfl⟩
      (Nat.lt_of_le_of_lt (pending_start n roads sources) below)
  exact ⟨last, settled, far, hlast, hs, hempty⟩

/-- and then all labels are the least values of paths -/
theorem run_nearest [LawfulLengths α] (cap : Option α) (measured : Measured (Road roads))
    (size : roads.size = n) (across : ∀ v, ∀ road ∈ ahead roads v, road.1 < n) {bound : Nat}
    (below : sources.length + ∑ v ∈ range n, (ahead roads v).length < bound) :
    ∃ last : Search α, repeatWhile (step roads cap) bound (start n sources) = .ok last ∧
      Ranged n last ∧ ∀ v, Nearest (Road roads) cap (· ∈ sources) v (last.label v) := by
  obtain ⟨last, settled, far, hlast, hs, hempty⟩ :=
    run_completes hlt cap measured size across bound below
  exact ⟨last, hlast, hs.ranged, hs.nearest measured hempty⟩

end
end Search

/-! ## distances on a mesh -/

namespace Mesh
variable {m : Mesh α}

/-- an edge of length `l` joins `u` and `w` -/
def Road (m : Mesh α) (u w : VertexId) (l : α) : Prop :=
  ∃ e, m.Joins e u w ∧ m.edgeLength e = .ok l

omit [Extended α] in
theorem edgeLength_eq_ok_iff {e : EdgeId} {l : α} : m.edgeLength e = .ok l ↔
    ∃ x p q, m.edges[e]? = some x ∧ m.position x.ends.2 = .ok q ∧ m.position x.ends.1 = .ok p ∧
      l = (q - p).norm := by
  unfold edgeLength edge
  simp only [bind_eq_ok_iff, fetch_eq_ok_iff, pure_eq_ok_iff]
  grind

omit [Extended α] in
theorem road_norm (u w : VertexId) (l : α) (hroad : m.Road u w l) : ∃ p : Vec3 α, p.norm = l := by
  obtain ⟨e, _, hl⟩ := hroad
  obtain ⟨x, p, q, _, _, _, rfl⟩ := edgeLength_eq_ok_iff.mp hl
  exact ⟨q - p, rfl⟩

theorem measured_road [LawfulLengths α] (m : Mesh α) : Measured m.Road := measured_of_norms road_norm

omit [Extended α] in
theorem Paved.road_eq (h : m.EdgeGraph) {roads : Roads α}
    (hp : Paved m (List.range m.edges.size) roads) :
    (fun u w l => (w, l) ∈ ahead roads u) = m.Road := by
  funext u w l
  refine propext ?_
  by_cases hu : u < m.vertices.size
  · rw [hp.mem hu]
    refine ⟨fun ⟨e, _, hroad⟩ => ⟨e, hroad⟩, fun ⟨e, hjoin, hl⟩ => ⟨e, ?_, hjoin, hl⟩⟩
    exact List.mem_range.mpr hjoin.isEnd_left.lt_size
  · refine ⟨fun hmem => ?_, fun ⟨e, hjoin, _⟩ => absurd (h.end_lt hjoin.isEnd_left) hu⟩
    unfold ahead at hmem
    rw [Array.getElem?_eq_none (hp.size.symm ▸ Nat.le_of_not_lt hu)] at hmem
    exact absurd hmem List.not_mem_nil

/-- distances on a mesh are those of the nearest sources -/
theorem EdgeGraph.distancesFrom_nearest [LawfulLengths α] (h : m.EdgeGraph)
    (sources : List VertexId) (cap : Option α) :
    ∃ f, m.distancesFrom sources cap = .ok f ∧ f.distances.size = m.vertices.size ∧
      f.numSources = (m.sourcesIn sources).length ∧ ∀ v < m.vertices.size,
        ∃ d, f.distance v = .ok d ∧ Nearest m.Road cap (· ∈ m.sourcesIn sources) v d := by
  unfold distancesFrom
  by_cases hnone : (m.sourcesIn sources).isEmpty = true
  · have hsources := List.isEmpty_iff.mp hnone
    refine ⟨_, if_pos hnone, ?_, ?_, fun v hv => ⟨Extended.infinity, ?_, ?_, .inl rfl⟩⟩
    · unfold DistanceField.unreachable
      rw [List.size_toArray, List.length_replicate]
    · rw [hsources]
      rfl
    · unfold DistanceField.distance DistanceField.unreachable
      rw [fetch_eq_ok_iff, List.getElem?_toArray, List.getElem?_replicate, if_pos hv]
    · intro d hreach
      obtain ⟨u, hu⟩ := hreach.exists_source
      rw [hsources] at hu
      exact absurd hu List.not_mem_nil
  · obtain ⟨roads, hroads, hpaved⟩ := h.roads_ok
    have hroad : Search.Road roads = m.Road := hpaved.road_eq h
    have measured : Measured (Search.Road roads) := hroad.symm ▸ measured_road m
    have hlt : ∀ v ∈ m.sourcesIn sources, v < m.vertices.size :=
      fun v hv => (mem_sourcesIn.mp hv).2
    have hcount := hpaved.count
    rw [List.length_range] at hcount
    obtain ⟨last, hlast, hranged, hnearest⟩ := Search.run_nearest hlt cap measured hpaved.size
      (hpaved.across h) (by rw [hcount]; exact Nat.lt_succ_self _)
    refine ⟨⟨last.distances, (m.sourcesIn sources).length⟩, ?_, hranged.size, rfl, fun v hv => ?_⟩
    · rw [if_neg hnone]
      exact bind_eq_ok_iff.mpr ⟨roads, hroads, bind_eq_ok_iff.mpr ⟨last, hlast, rfl⟩⟩
    · have hsize : v < last.distances.size := hranged.size.symm ▸ hv
      refine ⟨last.label v, ?_, hroad ▸ hnearest v⟩
      unfold DistanceField.distance
      rw [Search.label_of_lt hsize]
      exact fetch_of_lt hsize

/-- so they are found, one for each vertex: the search comes to its end before its bound -/
theorem EdgeGraph.distancesFrom_ok [LawfulLengths α] (h : m.EdgeGraph) (sources : List VertexId)
    (cap : Option α) :
    ∃ f, m.distancesFrom sources cap = .ok f ∧ f.distances.size = m.vertices.size := by
  obtain ⟨f, hf, hsize, _⟩ := h.distancesFrom_nearest sources cap
  exact ⟨f, hf, hsize⟩

end Mesh
end DiskCut
