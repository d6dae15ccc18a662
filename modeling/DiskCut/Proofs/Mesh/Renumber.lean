import DiskCut.Proofs.Mesh.Features

/-!
# Dropping useless edges

Plain edges without triangles are dropped and the others numbered again, in the old order.

* `Marks m`                the set of feature edges and the stars agree with the edges
* `getElem?_filter_iff`    where the members that are kept come from
* `Dropped m R m'`         `m'` has the used edges of `m`, in their order and numbered as `R` tells
* `dropUnusedEdges_spec`   so it is after the useless edges were dropped
* `Renewed m m'`           the adjacency of `m'` is that of the triangles of `m`, and no edge is useless
* `updateEdges_cases`      so it is after an update of the edges, unless that stops
-/

namespace DiskCut
open Std
namespace Mesh
variable {α : Type}

/-! ## feature marks -/

/-- the set of feature edges is that of the flagged ones, and stars hold edges -/
structure Marks (m : Mesh α) : Prop where
  feature : ∀ e, e ∈ m.featureEdges ↔ m.IsFeature e
  star_lt : ∀ {v : VertexId} {es : List EdgeId}, m.featureStars[v]? = some es →
    ∀ e ∈ es, e < m.edges.size

theorem Marks.lt_size {m : Mesh α} (h : m.Marks) : ∀ e ∈ m.featureEdges, e < m.edges.size :=
  fun e he => ((h.feature e).mp he).lt_size

/-- stars that are in sync hold feature edges only -/
theorem InSync.mem_features {m : Mesh α} (h : m.InSync) {v : VertexId} {es : List EdgeId}
    (hes : m.featureStars[v]? = some es) : ∀ e ∈ es, e ∈ m.featureEdges := by
  intro e he
  rw [h v] at hes
  rw [eq_of_starOf hes, List.mem_flatMap] at he
  obtain ⟨d, hd, he⟩ := he
  rw [mem_of_endsAt he]
  exact ExtTreeSet.mem_toList.mp hd

/-! ## new numbers -/

theorem length_renumber (n : Nat) (keep : List Bool) : (renumber n keep).length = keep.length := by
  induction keep generalizing n with
  | nil => rfl
  | cons b keep ih =>
    cases b with
    | true => exact congrArg (· + 1) (ih (n + 1))
    | false => exact congrArg (· + 1) (ih n)

theorem le_of_renumber {n i k : Nat} {keep : List Bool}
    (h : (renumber n keep)[i]? = some (some k)) : n ≤ k := by
  induction keep generalizing n i with
  | nil => cases h
  | cons b keep ih =>
    cases b with
    | true =>
      cases i with
      | zero =>
        obtain rfl : n = k := Option.some.inj (Option.some.inj h)
        exact Nat.le_refl n
      | succ i => exact Nat.le_of_succ_le (ih (n := n + 1) (i := i) h)
    | false =>
      cases i with
      | zero => cases Option.some.inj h
      | succ i => exact ih (n := n) (i := i) h

/-- just the members that are kept get a number -/
theorem isSome_renumber {n i : Nat} {keep : List Bool} {b : Bool} (h : keep[i]? = some b) :
    ∃ k, (renumber n keep)[i]? = some k ∧ k.isSome = b := by
  induction keep generalizing n i with
  | nil => cases h
  | cons c keep ih =>
    cases c with
    | true =>
      cases i with
      | zero =>
        obtain rfl : true = b := Option.some.inj h
        exact ⟨some n, rfl, rfl⟩
      | succ i => exact ih (n := n + 1) (i := i) h
    | false =>
      cases i with
      | zero =>
        obtain rfl : false = b := Option.some.inj h
        exact ⟨none, rfl, rfl⟩
      | succ i => exact ih (n := n) (i := i) h

/-- the members that are kept come from where their new number is written -/
theorem getElem?_filter_iff {β : Type} {p : β → Bool} {xs : List β} {n j : Nat} {x : β} :
    (xs.filter p)[j]? = some x ↔
      ∃ i : Nat, xs[i]? = some x ∧ (renumber n (xs.map p))[i]? = some (some (n + j)) := by
  induction xs generalizing n j with
  | nil => simp
  | cons y ys ih =>
    cases hy : p y with
    | true =>
      rw [List.filter_cons_of_pos hy, List.map_cons, hy]
      cases j with
      | zero =>
        refine ⟨fun h => ⟨0, h, rfl⟩, fun ⟨i, hx, hname⟩ => ?_⟩
        cases i with
        | zero => exact hx
        | succ i =>
          have hle := le_of_renumber (n := n + 1) (i := i) hname
          omega
      | succ j =>
        have e : n + 1 + j = n + (j + 1) := by omega
        rw [List.getElem?_cons_succ, ih (n := n + 1), e]
        refine ⟨fun ⟨i, hx, hname⟩ => ⟨i + 1, hx, hname⟩, fun ⟨i, hx, hname⟩ => ?_⟩
        cases i with
        | zero =>
          have heq : n = n + (j + 1) := Option.some.inj (Option.some.inj hname)
          omega
        | succ i => exact ⟨i, hx, hname⟩
    | false =>
      rw [List.filter_cons_of_neg (by rw [hy]; exact Bool.false_ne_true), List.map_cons, hy,
        ih (n := n)]
      refine ⟨fun ⟨i, hx, hname⟩ => ⟨i + 1, hx, hname⟩, fun ⟨i, hx, hname⟩ => ?_⟩
      cases i with
      | zero => cases Option.some.inj hname
      | succ i => exact ⟨i, hx, hname⟩

/-! ## the mesh of what is kept -/

/-- the edges with their lists of triangles -/
def slots (m : Mesh α) : List (Edge α × List TriangleId) :=
  m.edges.toList.zip m.edgeTriangles.toList

/-- the mesh of the given part alone, nothing derived -/
def withoutDerived (m : Mesh α) : Mesh α :=
  { m with
    edges := #[], edgeIndex := ∅, triangleEdges := #[], edgeTriangles := #[], featureEdges := ∅,
    featureStars := ∅ }

/-- `m'` has the used edges of `m`, edge `e` under the number `e'` when `R e e'` -/
structure Dropped (m : Mesh α) (R : EdgeId → EdgeId → Prop) (m' : Mesh α) : Prop where
  tabled : m'.Tabled
  marks : m'.Marks
  frame : m'.withoutDerived = m.withoutDerived
  slot : ∀ {e' : EdgeId} {slot : Edge α × List TriangleId}, m'.slots[e']? = some slot ↔
    ∃ e : EdgeId, m.slots[e]? = some slot ∧ R e e'
  used : ∀ {e : EdgeId} {slot : Edge α × List TriangleId}, m.slots[e]? = some slot →
    ((∃ e', R e e') ↔ isUsed slot = true)
  size : m'.triangleEdges.size = m.triangleEdges.size
  side : ∀ {t : TriangleId} {es : Triple EdgeId}, m.triangleEdges[t]? = some es →
    ∃ es', m'.triangleEdges[t]? = some es' ∧ ∀ j e', R (es.get j) e' → es'.get j = e'
  slots_eq : m'.slots = m.slots.filter isUsed
  inSync : m.InSync → m'.InSync

section
variable {m : Mesh α} {e : EdgeId} {x : Edge α} {ts : List TriangleId}

theorem getElem?_slots : m.slots[e]? = some (x, ts) ↔
    m.edges[e]? = some x ∧ m.edgeTriangles[e]? = some ts := by
  unfold slots
  rw [List.getElem?_zip_eq_some, Array.getElem?_toList, Array.getElem?_toList]

theorem Tabled.length_slots (tab : m.Tabled) : m.slots.length = m.edges.size := by
  unfold slots
  rw [List.length_zip, Array.length_toList, Array.length_toList, tab.size_eq, Nat.min_self]

theorem Tabled.exists_slot (tab : m.Tabled) (hx : m.edges[e]? = some x) :
    ∃ ts, m.slots[e]? = some (x, ts) := by
  have hlt := (Array.getElem?_eq_some_iff.mp hx).1
  rw [← tab.size_eq] at hlt
  exact ⟨_, getElem?_slots.mpr ⟨hx, Array.getElem?_eq_getElem hlt⟩⟩

/-- nothing is dropped when all edges are used -/
theorem Tabled.dropped_self (tab : m.Tabled) (marks : m.Marks) (hall : m.slots.all isUsed = true) :
    Dropped m (fun e e' => e' = e) m where
  tabled := tab
  marks := marks
  frame := rfl
  slot := by
    intro e' slot
    refine ⟨fun h => ⟨e', h, rfl⟩, ?_⟩
    rintro ⟨e, h, rfl⟩
    exact h
  used := by
    intro e slot hslot
    refine ⟨fun _ => List.all_eq_true.mp hall slot (List.mem_of_getElem? hslot), fun _ => ⟨e, rfl⟩⟩
  size := rfl
  side := fun hes => ⟨_, hes, fun _ _ heq => heq.symm⟩
  slots_eq := (List.filter_eq_self.mpr (List.all_eq_true.mp hall)).symm
  inSync := id

end

/-! ## all of it -/

section
variable {m : Mesh α}

/-- the new numbers of the edges that are kept -/
def names (m : Mesh α) : List (Option EdgeId) := renumber 0 (m.slots.map isUsed)

/-- edge `e` is kept under the number `e'` -/
def KeptAs (m : Mesh α) (e e' : EdgeId) : Prop := m.names[e]? = some (some e')

/-- what is kept of the edges, their lists and their index -/
def kept (m : Mesh α) : Mesh α :=
  { m with
    edges := ((m.slots.filter isUsed).map Prod.fst).toArray
    edgeTriangles := ((m.slots.filter isUsed).map Prod.snd).toArray
    edgeIndex := ExtTreeMap.ofList ((m.slots.filter isUsed).map (·.1.ends)).zipIdx pairOrder }

theorem slots_kept : m.kept.slots = m.slots.filter isUsed := by
  show ((m.slots.filter isUsed).map Prod.fst).zip ((m.slots.filter isUsed).map Prod.snd) = _
  exact (List.zip_of_prod rfl rfl).symm

theorem getElem?_slots_kept {e' : EdgeId} {slot : Edge α × List TriangleId} :
    m.kept.slots[e']? = some slot ↔ ∃ e : EdgeId, m.slots[e]? = some slot ∧ m.KeptAs e e' := by
  rw [slots_kept, getElem?_filter_iff (n := 0), Nat.zero_add]
  rfl

theorem keptAs_iff {e : EdgeId} {slot : Edge α × List TriangleId} (h : m.slots[e]? = some slot) :
    (∃ e', m.KeptAs e e') ↔ isUsed slot = true := by
  have hkeep : (m.slots.map isUsed)[e]? = some (isUsed slot) := by
    rw [List.getElem?_map, h]
    rfl
  obtain ⟨k, hk, hsome⟩ := isSome_renumber (n := 0) hkeep
  unfold KeptAs names
  rw [hk, ← hsome, Option.isSome_iff_exists]
  simp

/-- different edges have different ends, among those that are kept as well -/
theorem Tabled.nodup_ends (tab : m.Tabled) : ((m.slots.filter isUsed).map (·.1.ends)).Nodup := by
  have hall : (m.slots.map (·.1.ends)).Nodup := by
    rw [List.nodup_iff_getElem?_ne_getElem?]
    intro i j hij hj heq
    rw [List.length_map] at hj
    rw [List.getElem?_map, List.getElem?_map, List.getElem?_eq_getElem hj,
      List.getElem?_eq_getElem (Nat.lt_trans hij hj)] at heq
    have hi := (getElem?_slots.mp (List.getElem?_eq_getElem (Nat.lt_trans hij hj))).1
    have hj := (getElem?_slots.mp (List.getElem?_eq_getElem hj)).1
    exact Nat.ne_of_lt hij (tab.eq_of_ends hi hj (Option.some.inj heq))
  exact hall.sublist (List.filter_sublist.map _)

theorem Tabled.getElem?_edgeIndex_kept (tab : m.Tabled) {k : VertexId × VertexId} {e : EdgeId} :
    m.kept.edgeIndex[k]? = some e ↔ ∃ x, m.kept.edges[e]? = some x ∧ x.ends = k := by
  unfold Mesh.kept
  rw [getElem?_ofList_iff (by rw [List.zipIdx_map_fst]; exact tab.nodup_ends),
    List.mk_mem_zipIdx_iff_getElem?, List.getElem?_map, List.getElem?_toArray, List.getElem?_map]
  cases (m.slots.filter isUsed)[e]? <;> simp

theorem Tabled.kept (tab : m.Tabled) : m.kept.Tabled where
  index_of_edge := fun hx => tab.getElem?_edgeIndex_kept.mpr ⟨_, hx, rfl⟩
  edge_of_index := fun hk => tab.getElem?_edgeIndex_kept.mp hk
  ends_le := by
    intro e x hx
    have hlt := (Array.getElem?_eq_some_iff.mp hx).1
    have hlist : m.kept.edgeTriangles.size = m.kept.edges.size := by simp [Mesh.kept]
    rw [← hlist] at hlt
    obtain ⟨e₀, hslot, _⟩ :=
      getElem?_slots_kept.mp (getElem?_slots.mpr ⟨hx, Array.getElem?_eq_getElem hlt⟩)
    exact tab.ends_le (getElem?_slots.mp hslot).1
  size_eq := by simp [Mesh.kept]

theorem Tabled.isFeature_kept (tab : m.Tabled) {e' : EdgeId} :
    m.kept.IsFeature e' ↔ ∃ e, m.IsFeature e ∧ m.KeptAs e e' := by
  refine ⟨?_, ?_⟩
  · intro ⟨x, hx, hf⟩
    obtain ⟨ts, hslot⟩ := tab.kept.exists_slot hx
    obtain ⟨e, hslot, hname⟩ := getElem?_slots_kept.mp hslot
    exact ⟨e, ⟨x, (getElem?_slots.mp hslot).1, hf⟩, hname⟩
  · intro ⟨e, ⟨x, hx, hf⟩, hname⟩
    obtain ⟨ts, hslot⟩ := tab.exists_slot hx
    have hkept := getElem?_slots_kept.mpr ⟨e, hslot, hname⟩
    exact ⟨x, (getElem?_slots.mp hkept).1, hf⟩

theorem Tabled.length_names (tab : m.Tabled) : m.names.length = m.edges.size := by
  unfold names
  rw [length_renumber, List.length_map, tab.length_slots]

/-- an edge gets its new number, if it has one -/
theorem Tabled.renamed_ok (tab : m.Tabled) {e : EdgeId} (he : e < m.edges.size) :
    ∃ e', renamed m.names.toArray e = .ok e' ∧ ∀ k, m.KeptAs e k → e' = k := by
  have hlt : e < m.names.length := by
    rw [tab.length_names]
    exact he
  have hname := List.getElem?_eq_getElem hlt
  refine ⟨(m.names[e]).getD e, ?_, fun k hk => ?_⟩
  · unfold renamed
    rw [fetch_eq_ok_iff.mpr (by rw [List.getElem?_toArray]; exact hname)]
    rfl
  · unfold KeptAs at hk
    rw [hname] at hk
    rw [Option.some.inj hk]
    rfl

/-- so do the sides of a triangle -/
theorem Tabled.renamedSides_ok (tab : m.Tabled) {es : Triple EdgeId}
    (hlt : ∀ j, es.get j < m.edges.size) :
    ∃ es', (do
        return ⟨← renamed m.names.toArray es.a, ← renamed m.names.toArray es.b,
          ← renamed m.names.toArray es.c⟩ : Except Fault (Triple EdgeId)) = .ok es' ∧
      ∀ j k, m.KeptAs (es.get j) k → es'.get j = k := by
  obtain ⟨a, ha, hak⟩ := tab.renamed_ok (hlt 0)
  obtain ⟨b, hb, hbk⟩ := tab.renamed_ok (hlt 1)
  obtain ⟨c, hc, hck⟩ := tab.renamed_ok (hlt 2)
  refine ⟨⟨a, b, c⟩, bind_eq_ok_iff.mpr ⟨a, ha, bind_eq_ok_iff.mpr ⟨b, hb,
    bind_eq_ok_iff.mpr ⟨c, hc, rfl⟩⟩⟩, fun j => ?_⟩
  match j with
  | 0 => exact hak
  | 1 => exact hbk
  | 2 => exact hck

/-- and the feature edges, which are all kept -/
theorem Tabled.renamedFeatures_ok (tab : m.Tabled) (marks : m.Marks) :
    ∃ ys, m.featureEdges.toList.mapM (fetch m.names.toArray) = .ok ys ∧
      ∀ e', e' ∈ ExtTreeSet.ofList (ys.filterMap id) compare ↔ m.kept.IsFeature e' := by
  have total : ∀ e ∈ m.featureEdges.toList, ∃ y, fetch m.names.toArray e = .ok y := by
    intro e he
    have hlt := marks.lt_size e (ExtTreeSet.mem_toList.mp he)
    rw [← tab.length_names, ← List.size_toArray] at hlt
    exact ⟨_, fetch_of_lt hlt⟩
  obtain ⟨ys, hys⟩ := mapM_total total
  refine ⟨ys, hys, fun e' => ?_⟩
  rw [mem_ofList_iff, List.mem_filterMap, tab.isFeature_kept]
  simp only [id_eq, exists_eq_right, mem_mapM_iff hys, ExtTreeSet.mem_toList, fetch_eq_ok_iff,
    List.getElem?_toArray, marks.feature]
  rfl

theorem dropUnusedEdges_spec (tab : m.Tabled) (marks : m.Marks)
    (sides : ∀ {t : TriangleId} {es : Triple EdgeId}, m.triangleEdges[t]? = some es →
      ∀ j, es.get j < m.edges.size) :
    ∃ m' R, m.dropUnusedEdges = .ok m' ∧ Dropped m R m' := by
  by_cases hall : m.slots.all isUsed = true
  · refine ⟨m, _, ?_, tab.dropped_self marks hall⟩
    unfold dropUnusedEdges
    exact if_pos hall
  · obtain ⟨triangleEdges, hsides, hside⟩ := mapM_spec fun es hes => by
      obtain ⟨t, ht⟩ := List.mem_iff_getElem?.mp hes
      rw [Array.getElem?_toList] at ht
      exact tab.renamedSides_ok (sides ht)
    obtain ⟨ys, hys, hfeature⟩ := tab.renamedFeatures_ok marks
    let r : Mesh α :=
      { m.kept with
        triangleEdges := triangleEdges.toArray
        featureEdges := ExtTreeSet.ofList (ys.filterMap id) compare }
    have hlt : ∀ e ∈ r.featureEdges, e < r.edges.size := fun e he => ((hfeature e).mp he).lt_size
    obtain ⟨stars, hstars, hsync⟩ := updateFeatureIncidence_total hlt
    refine ⟨{ r with featureStars := stars }, m.KeptAs, ?_, ?_⟩
    · unfold dropUnusedEdges
      refine (if_neg hall).trans ?_
      exact bind_eq_ok_iff.mpr ⟨_, hsides, bind_eq_ok_iff.mpr ⟨_, hys, hstars⟩⟩
    · exact {
        tabled := { tab.kept with }
        marks := ⟨hfeature, fun hes e he => hlt e (hsync.mem_features hes e he)⟩
        frame := rfl
        slot := getElem?_slots_kept
        used := keptAs_iff
        size := by
          show triangleEdges.toArray.size = _
          rw [List.size_toArray, ← hside.length_eq, Array.length_toList]
        side := by
          intro t es hes
          rw [← Array.getElem?_toList] at hes
          obtain ⟨es', hes', hnew⟩ := exists_of_forall₂ hside hes
          exact ⟨es', by rw [List.getElem?_toArray]; exact hes', hnew⟩
        slots_eq := slots_kept
        inSync := fun _ => hsync }

end

/-! ## the whole update -/

/-- the derived part of `m'`, features apart, is that of the triangles of `m`, without useless
edges -/
structure Renewed (m m' : Mesh α) : Prop where
  tabled : m'.Tabled
  adjacent : m'.Adjacent
  marks : m'.Marks
  used : ∀ {e : EdgeId} {x : Edge α}, m'.edges[e]? = some x →
    x.isFeature = true ∨ m'.trianglesOn x.ends ≠ []
  frame : m'.withoutDerived = m.withoutDerived

section
variable {m m' last : Mesh α} {R : EdgeId → EdgeId → Prop}

theorem triangles_of_withoutDerived (h : m'.withoutDerived = m.withoutDerived) :
    m'.triangles = m.triangles :=
  (congrArg Mesh.triangles h :)

theorem trianglesOn_of_triangles (h : m'.triangles = m.triangles) (k : VertexId × VertexId) :
    m'.trianglesOn k = m.trianglesOn k := by
  unfold trianglesOn sideList numberedTriangles
  rw [h]

theorem isUsed_iff {slot : Edge α × List TriangleId} :
    isUsed slot = true ↔ slot.1.isFeature = true ∨ slot.2 ≠ [] := by
  unfold isUsed
  cases slot.2 <;> simp

/-- the sides of triangles are used, and keep their edges under the new numbers -/
theorem Dropped.adjacent (h : Dropped m R m') (tab : m.Tabled) (adj : m.Adjacent) :
    m'.Adjacent where
  size := by
    rw [h.size, adj.size, triangles_of_withoutDerived h.frame]
  side := by
    intro t vs hvs
    rw [triangles_of_withoutDerived h.frame] at hvs
    obtain ⟨es, hes, hside⟩ := adj.side hvs
    obtain ⟨es', hes', hnew⟩ := h.side hes
    refine ⟨es', hes', fun j => ?_⟩
    obtain ⟨x, hx, hends⟩ := tab.edge_of_index (hside j)
    have hmem : t ∈ m.trianglesOn x.ends := mem_trianglesOn.mpr ⟨vs, hvs, j, hends.symm⟩
    have hslot := getElem?_slots.mpr ⟨hx, adj.present hx⟩
    obtain ⟨e', he'⟩ := (h.used hslot).mpr (isUsed_iff.mpr (.inr (List.ne_nil_of_mem hmem)))
    have hslot' := h.slot.mpr ⟨_, hslot, he'⟩
    rw [hnew j e' he', ← hends]
    exact h.tabled.index_of_edge (getElem?_slots.mp hslot').1
  present := by
    intro e' x hx
    obtain ⟨ts, hslot'⟩ := h.tabled.exists_slot hx
    obtain ⟨e, hslot, _⟩ := h.slot.mp hslot'
    have hpresent := adj.present (getElem?_slots.mp hslot).1
    rw [(getElem?_slots.mp hslot).2] at hpresent
    rw [(getElem?_slots.mp hslot').2, hpresent,
      trianglesOn_of_triangles (triangles_of_withoutDerived h.frame)]
  few := by
    intro k
    rw [trianglesOn_of_triangles (triangles_of_withoutDerived h.frame)]
    exact adj.few k

theorem Dropped.covered (h : Dropped m R m') (tab : m.Tabled) (adj : m.Adjacent) {e' : EdgeId}
    {x : Edge α} (hx : m'.edges[e']? = some x) :
    x.isFeature = true ∨ m'.trianglesOn x.ends ≠ [] := by
  obtain ⟨ts, hslot'⟩ := h.tabled.exists_slot hx
  obtain ⟨e, hslot, he⟩ := h.slot.mp hslot'
  have hpresent := (h.adjacent tab adj).present hx
  rw [(getElem?_slots.mp hslot').2] at hpresent
  rw [← Option.some.inj hpresent]
  exact isUsed_iff.mp ((h.used hslot).mp ⟨e', he⟩)

variable [Scalar α]

/-- recording sides adds plain edges only -/
theorem Joining.marks {keys : List (VertexId × VertexId)}
    {done : List ((VertexId × VertexId) × TriangleId)} (h : Joining m keys done m')
    (marks : m.Marks) : m'.Marks where
  feature := by
    intro e
    rw [featureEdges_of_withoutEdges h.frame, marks.feature]
    refine ⟨fun ⟨x, hx, hf⟩ => ⟨x, h.old hx, hf⟩, fun ⟨x, hx, hf⟩ => ?_⟩
    rcases h.fresh hx with hold | ⟨a, b, rfl, _⟩
    · exact ⟨x, hold, hf⟩
    · cases hf
  star_lt := by
    intro v es hes e he
    rw [featureStars_of_withoutEdges h.frame] at hes
    have hx := Array.getElem?_eq_getElem (marks.star_lt hes e he)
    exact (Array.getElem?_eq_some_iff.mp (h.old hx)).1

omit [Scalar α] in
theorem withoutDerived_of_withoutEdges (h : m'.withoutEdges = m.withoutEdges) :
    m'.withoutDerived = m.withoutDerived := by
  have e := congrArg Mesh.withoutDerived h
  exact e

/-- the useless edges are dropped once all triangles are recorded -/
theorem Joined.dropped (h : Joined m m.numberedTriangles m') (marks : m.Marks) :
    ∃ last R, m'.dropUnusedEdges = .ok last ∧ Dropped m' R last := by
  have hup := h.updated
  refine dropUnusedEdges_spec hup.tabled (h.1.marks marks) fun {t es} hes j => ?_
  have hlt := (Array.getElem?_eq_some_iff.mp hes).1
  rw [hup.adjacent.size] at hlt
  obtain ⟨es', hes', hside⟩ := hup.adjacent.side (Array.getElem?_eq_getElem hlt)
  rw [hes] at hes'
  obtain rfl := Option.some.inj hes'
  exact hup.tabled.lt_size (hside j)

theorem Dropped.renewed (h : Dropped m' R last) (hup : Updated m m') : Renewed m last where
  tabled := h.tabled
  adjacent := h.adjacent hup.tabled hup.adjacent
  marks := h.marks
  used := fun hx => h.covered hup.tabled hup.adjacent hx
  frame := h.frame.trans (withoutDerived_of_withoutEdges hup.frame)

/-- an update of the edges brings the derived part up to date, or stops on a side with two
triangles -/
theorem updateEdges_cases (tab : m.Tabled) (marks : m.Marks) :
    (∃ last, m.updateEdges = .ok last ∧ Renewed m last) ∨
    ∃ stopped pre x post, m.updateEdges = .error stopped ∧
      m.numberedTriangles = pre ++ x :: post ∧ Halted m pre x.2 stopped.mesh := by
  cases hjoin : m.numberedTriangles.foldlM joinTriangle m.clearAdjacency with
  | ok joined =>
    have hjoined := joinAll_spec tab hjoin
    obtain ⟨last, R, hlast, hdrop⟩ := hjoined.dropped marks
    exact .inl ⟨last, bind_eq_ok_iff.mpr ⟨joined, hjoin, leaving_eq_ok_iff.mpr hlast⟩,
      hdrop.renewed hjoined.updated⟩
  | error stopped =>
    obtain ⟨pre, x, post, k, hsplit, _, hstuck⟩ := joinAll_stuck tab hjoin
    exact .inr ⟨stopped, pre, x, post, bind_eq_error_iff.mpr (.inl hjoin), hsplit, hstuck.halted⟩

end
end Mesh
end DiskCut
