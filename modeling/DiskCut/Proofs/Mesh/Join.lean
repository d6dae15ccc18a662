import DiskCut.Proofs.Mesh.Table

/-!
# Recording the sides of all triangles

`updateEdges` reads the sides of the triangles one by one; each side finds or inserts its edge and
is recorded there.

* `Joining m₀ keys done m`   `m` is `m₀` with the pairs `keys` looked up and the sides `done` recorded
* `Joining.insert`, `Joining.record`   the two halves of one side
* `Stuck m₀ done x k m`      recording stopped at the side `k` of triangle `x`, its third triangle
* `Adjacent m`               the recorded sides are those of the triangles
* `updateEdges_spec`         a completed update leaves a table with exactly the sides
* `updateEdges_stopped`      a stopped one met a third triangle
* `updateEdges_total`        so it completes when no pair is the side of a third triangle

The last three statements are about meshes whose edges without triangles are all features, so that no
edge is dropped.
-/

namespace DiskCut
open Std
namespace Mesh
variable {α : Type}

/-- the mesh without edges and adjacency: what recording sides leaves alone -/
def withoutEdges (m : Mesh α) : Mesh α :=
  { m with edges := #[], edgeIndex := ∅, triangleEdges := #[], edgeTriangles := #[] }

section
variable {m m' : Mesh α} (h : m'.withoutEdges = m.withoutEdges)
include h

theorem vertices_of_withoutEdges : m'.vertices = m.vertices :=
  (congrArg Mesh.vertices h :)
theorem triangles_of_withoutEdges : m'.triangles = m.triangles :=
  (congrArg Mesh.triangles h :)
theorem lines_of_withoutEdges : m'.lines = m.lines :=
  (congrArg Mesh.lines h :)
theorem featureEdges_of_withoutEdges : m'.featureEdges = m.featureEdges :=
  (congrArg Mesh.featureEdges h :)
theorem featureStars_of_withoutEdges : m'.featureStars = m.featureStars :=
  (congrArg Mesh.featureStars h :)
theorem singularities_of_withoutEdges : m'.singularities = m.singularities :=
  (congrArg Mesh.singularities h :)

end

/-- `m` is `m₀` after the pairs `keys` were looked up and the sides `done` recorded -/
structure Joining [Scalar α] (m₀ : Mesh α) (keys : List (VertexId × VertexId))
    (done : List ((VertexId × VertexId) × TriangleId)) (m : Mesh α) : Prop where
  tabled : m.Tabled
  frame : m.withoutEdges = m₀.withoutEdges
  read : ∀ k ∈ done.map Prod.fst, k ∈ keys
  old : ∀ {e : EdgeId} {x : Edge α}, m₀.edges[e]? = some x → m.edges[e]? = some x
  fresh : ∀ {e : EdgeId} {x : Edge α}, m.edges[e]? = some x →
    m₀.edges[e]? = some x ∨ ∃ a b, x = plainEdge a b ∧ edgeKey a b ∈ keys
  pairs_eq : m.pairs = (m₀.pairs ++ keys).eraseDups
  present : ∀ {e : EdgeId} {x : Edge α}, m.edges[e]? = some x →
    m.edgeTriangles[e]? = some (owners done x.ends)
  few : ∀ k, (owners done k).length ≤ 2

/-- `m'` knows every pair that `m` knows, under the same number; no triangle is finished in between -/
structure Extends (m m' : Mesh α) : Prop where
  index : ∀ {k : VertexId × VertexId} {e : EdgeId}, m.edgeIndex[k]? = some e →
    m'.edgeIndex[k]? = some e
  triangleEdges : m'.triangleEdges = m.triangleEdges

theorem Extends.refl (m : Mesh α) : Extends m m := ⟨id, rfl⟩

theorem Extends.trans {m m' m'' : Mesh α} (h : Extends m m') (h' : Extends m' m'') :
    Extends m m'' :=
  ⟨fun hk => h'.index (h.index hk), h'.triangleEdges.trans h.triangleEdges⟩

section
variable [Scalar α] {m₀ m m' : Mesh α} {keys : List (VertexId × VertexId)}
  {done : List ((VertexId × VertexId) × TriangleId)} {a b : VertexId} {t : TriangleId} {e : EdgeId}

/-! ## one side -/

/-- what was looked up is in the table -/
theorem Joining.known (h : Joining m₀ keys done m) : ∀ k ∈ keys, ∃ e, m.edgeIndex[k]? = some e := by
  intro k hk
  rw [← h.tabled.mem_pairs, h.pairs_eq, List.mem_eraseDups]
  exact List.mem_append_right _ hk

theorem getElem?_edgeIndex_pushEdge :
    (m.pushEdge (plainEdge a b)).edgeIndex[edgeKey a b]? = some m.edges.size :=
  ExtTreeMap.getElem?_insert_self

omit [Scalar α] in
theorem extends_pushEdge {x : Edge α} (hnone : m.edgeIndex[x.ends]? = none) :
    Extends m (m.pushEdge x) := by
  refine ⟨fun {k e} hk => ?_, rfl⟩
  show (m.edgeIndex.insert x.ends m.edges.size)[k]? = some e
  have hne : x.ends ≠ k := by
    intro heq
    subst heq
    rw [hnone] at hk
    cases hk
  rw [ExtTreeMap.getElem?_insert, if_neg (mt pairOrder_eq_iff.mp hne)]
  exact hk

/-- the edge of a side found -/
theorem Joining.find (h : Joining m₀ keys done m) (he : m.edgeIndex[edgeKey a b]? = some e) :
    Joining m₀ (keys ++ [edgeKey a b]) done m :=
  { h with
    read := fun k hk => List.mem_append_left _ (h.read k hk)
    fresh := by
      intro e' x hx
      rcases h.fresh hx with hold | ⟨a', b', hx', hk⟩
      · exact .inl hold
      · exact .inr ⟨a', b', hx', List.mem_append_left _ hk⟩
    pairs_eq := by
      have hmem := h.tabled.mem_pairs.mpr ⟨e, he⟩
      rw [h.pairs_eq, List.mem_eraseDups] at hmem
      rw [← List.append_assoc, eraseDups_concat_of_mem hmem]
      exact h.pairs_eq }

/-- the edge of a side inserted -/
theorem Joining.push (h : Joining m₀ keys done m) (hnone : m.edgeIndex[edgeKey a b]? = none) :
    Joining m₀ (keys ++ [edgeKey a b]) done (m.pushEdge (plainEdge a b)) where
  tabled := h.tabled.push (x := plainEdge a b) (edgeKey_fst_le a b) hnone
  frame := h.frame
  read := fun k hk => List.mem_append_left _ (h.read k hk)
  old := by
    intro e x hx
    have hlt := (Array.getElem?_eq_some_iff.mp (h.old hx)).1
    show (m.edges.push (plainEdge a b))[e]? = some x
    rw [Array.getElem?_push, if_neg (Nat.ne_of_lt hlt)]
    exact h.old hx
  fresh := by
    intro e x hx
    change (m.edges.push (plainEdge a b))[e]? = some x at hx
    rw [Array.getElem?_push] at hx
    split at hx
    · obtain rfl := Option.some.inj hx
      exact .inr ⟨a, b, rfl, by simp⟩
    · rcases h.fresh hx with hold | ⟨a', b', hx', hk⟩
      · exact .inl hold
      · exact .inr ⟨a', b', hx', List.mem_append_left _ hk⟩
  pairs_eq := by
    have hno : edgeKey a b ∉ m₀.pairs ++ keys := by
      intro hmem
      rw [← List.mem_eraseDups, ← h.pairs_eq, h.tabled.mem_pairs] at hmem
      obtain ⟨e, he⟩ := hmem
      rw [hnone] at he
      cases he
    rw [pairs_pushEdge, ends_plainEdge, h.pairs_eq, ← List.append_assoc,
      eraseDups_concat_of_not_mem hno]
  present := by
    intro e x hx
    change (m.edges.push (plainEdge a b))[e]? = some x at hx
    show (m.edgeTriangles.push [])[e]? = some (owners done x.ends)
    rw [Array.getElem?_push] at hx ⊢
    rw [h.tabled.size_eq]
    split at hx
    · rename_i he
      obtain rfl := Option.some.inj hx
      -- a pair that the table does not know was never recorded
      have hnil : owners done (edgeKey a b) = [] := by
        by_contra hne
        obtain ⟨e', he'⟩ := h.known _ (h.read _ (owners_ne_nil.mp hne))
        rw [hnone] at he'
        cases he'
      rw [if_pos he, ends_plainEdge, hnil]
    · rename_i he
      rw [if_neg he]
      exact h.present hx
  few := h.few

/-- the edge of a side found or inserted -/
theorem Joining.insert (h : Joining m₀ keys done m) (a b : VertexId) :
    ∃ m₁ e new, m.insertEdge a b = (m₁, e, new) ∧ m₁.edgeIndex[edgeKey a b]? = some e ∧
      Extends m m₁ ∧ Joining m₀ (keys ++ [edgeKey a b]) done m₁ := by
  rcases insertEdge_cases m a b with ⟨e, he, hins⟩ | ⟨hnone, hins⟩
  · exact ⟨m, e, false, hins, he, .refl m, h.find he⟩
  · exact ⟨_, _, _, hins, getElem?_edgeIndex_pushEdge, extends_pushEdge (x := plainEdge a b) hnone,
      h.push hnone⟩

theorem Joining.finish (h : Joining m₀ keys done m) (sides : Array (Triple EdgeId)) :
    Joining m₀ keys done { m with triangleEdges := sides } :=
  { h with tabled := { h.tabled with } }

/-- a triangle recorded at the edge of one of its sides -/
theorem Joining.record (h : Joining m₀ keys done m) {k : VertexId × VertexId} (hk : k ∈ keys)
    (he : m.edgeIndex[k]? = some e) (room : (owners done k).length < 2) :
    Joining m₀ keys (done ++ [(k, t)])
      { m with edgeTriangles := m.edgeTriangles.modify e (· ++ [t]) } where
  tabled :=
    ⟨h.tabled.index_of_edge, h.tabled.edge_of_index, h.tabled.ends_le, by
      show (m.edgeTriangles.modify e _).size = m.edges.size
      rw [Array.size_modify]
      exact h.tabled.size_eq⟩
  frame := h.frame
  read := by
    intro k' hk'
    rw [List.map_append, List.mem_append] at hk'
    rcases hk' with hk' | hk'
    · exact h.read k' hk'
    · rw [List.mem_singleton.mp hk']
      exact hk
  old := h.old
  fresh := h.fresh
  pairs_eq := h.pairs_eq
  present := by
    intro e' x hx
    show (m.edgeTriangles.modify e (· ++ [t]))[e']? = some (owners (done ++ [(k, t)]) x.ends)
    rw [Array.getElem?_modify, h.present hx, owners_append, owners_singleton]
    by_cases hee : e = e'
    · subst hee
      rw [if_pos rfl, if_pos (h.tabled.ends_eq hx he).symm]
      rfl
    · have hne : k ≠ x.ends := by
        intro heq
        subst heq
        rw [h.tabled.index_of_edge hx] at he
        exact hee (Option.some.inj he).symm
      rw [if_neg hee, if_neg hne, List.append_nil]
  few := by
    intro k'
    rw [owners_append, owners_singleton, List.length_append]
    by_cases hkk : k = k'
    · rw [← hkk, if_pos rfl, List.length_singleton]
      omega
    · rw [if_neg hkk]
      exact h.few k'

theorem joinSide_of_insert {m₁ : Mesh α} {new : Bool} {ts : List TriangleId}
    (hins : m.insertEdge a b = (m₁, e, new)) (hts : m₁.edgeTriangles[e]? = some ts)
    (room : ts.length ≠ 2) :
    m.joinSide t a b =
      .ok ({ m₁ with edgeTriangles := m₁.edgeTriangles.modify e (· ++ [t]) }, e) := by
  have hlt := (Array.getElem?_eq_some_iff.mp hts).1
  unfold joinSide
  simp only [hins, trianglesAt, fetch_eq_ok_iff.mpr hts, alter_of_lt hlt, leaving,
    mapError_ok, bind, Except.bind, if_neg room]
  rfl

theorem joinSide_of_full {m₁ : Mesh α} {new : Bool} {ts : List TriangleId} {x : Edge α}
    (hins : m.insertEdge a b = (m₁, e, new)) (hts : m₁.edgeTriangles[e]? = some ts)
    (hx : m₁.edges[e]? = some x) (full : ts.length = 2) :
    m.joinSide t a b = .error ⟨m₁, .mesh (.nonManifoldEdge x.ends.1 x.ends.2)⟩ := by
  unfold joinSide
  simp only [hins, trianglesAt, edge, fetch_eq_ok_iff.mpr hts, fetch_eq_ok_iff.mpr hx, leaving,
    mapError_ok, bind, Except.bind, if_pos full]

/-- a side is recorded exactly when its pair has fewer than two triangles so far -/
theorem Joining.joinSide (h : Joining m₀ keys done m) (t : TriangleId) (a b : VertexId) :
    ((owners done (edgeKey a b)).length < 2 ∧ ∃ m' e, m.joinSide t a b = .ok (m', e) ∧
      m'.edgeIndex[edgeKey a b]? = some e ∧ Extends m m' ∧
      Joining m₀ (keys ++ [edgeKey a b]) (done ++ [(edgeKey a b, t)]) m') ∨
    ((owners done (edgeKey a b)).length = 2 ∧ ∃ m', m.joinSide t a b =
      .error ⟨m', .mesh (.nonManifoldEdge (edgeKey a b).1 (edgeKey a b).2)⟩ ∧ Extends m m' ∧
      Joining m₀ (keys ++ [edgeKey a b]) done m') := by
  obtain ⟨m₁, e, new, hins, he, hext, h₁⟩ := h.insert a b
  obtain ⟨x, hx, hends⟩ := h₁.tabled.edge_of_index he
  have hts := h₁.present hx
  rw [hends] at hts
  rcases Nat.lt_or_eq_of_le (h.few (edgeKey a b)) with hlt | heq
  · refine .inl ⟨hlt, _, _, joinSide_of_insert hins hts (by omega), he, ?_, ?_⟩
    · exact hext.trans ⟨id, rfl⟩
    · exact h₁.record (by simp) he hlt
  · refine .inr ⟨heq, m₁, ?_, hext, h₁⟩
    rw [joinSide_of_full hins hts hx heq, hends]

/-! ## one triangle -/

/-- the recorded sides of the triangles `done` are their edges in the table -/
structure Sided (done : List (Triple VertexId × TriangleId)) (m : Mesh α) : Prop where
  size : m.triangleEdges.size = done.length
  side : ∀ {i : Nat} {x : Triple VertexId × TriangleId}, done[i]? = some x →
    ∃ es, m.triangleEdges[i]? = some es ∧ ∀ j, m.edgeIndex[x.1.keys.get j]? = some (es.get j)

omit [Scalar α] in
theorem Sided.extend {done : List (Triple VertexId × TriangleId)} {m₁ : Mesh α}
    (h : Sided done m) (hext : Extends m m₁) : Sided done m₁ where
  size := by
    rw [hext.triangleEdges]
    exact h.size
  side := by
    intro i x hx
    obtain ⟨es, hes, hside⟩ := h.side hx
    exact ⟨es, hext.triangleEdges ▸ hes, fun j => hext.index (hside j)⟩

omit [Scalar α] in
/-- the three sides of a further triangle recorded -/
theorem Sided.push {done : List (Triple VertexId × TriangleId)} {m₁ : Mesh α}
    {x : Triple VertexId × TriangleId} {es : Triple EdgeId} (h : Sided done m)
    (hext : Extends m m₁) (hes : ∀ j, m₁.edgeIndex[x.1.keys.get j]? = some (es.get j)) :
    Sided (done ++ [x]) { m₁ with triangleEdges := m₁.triangleEdges.push es } where
  size := by
    show (m₁.triangleEdges.push es).size = _
    rw [Array.size_push, hext.triangleEdges, h.size, List.length_append, List.length_singleton]
  side := by
    intro i y hy
    show ∃ es', (m₁.triangleEdges.push es)[i]? = some es' ∧ _
    rw [Array.getElem?_push, hext.triangleEdges, h.size]
    by_cases hi : i < done.length
    · rw [List.getElem?_append_left hi] at hy
      obtain ⟨es', hes', hside⟩ := h.side hy
      refine ⟨es', ?_, fun j => hext.index (hside j)⟩
      rw [if_neg (Nat.ne_of_lt hi)]
      exact hes'
    · have hlen : i < (done ++ [x]).length := (List.getElem?_eq_some_iff.mp hy).1
      rw [List.length_append, List.length_singleton] at hlen
      have hi' : i = done.length := by omega
      subst hi'
      rw [List.getElem?_concat_length] at hy
      obtain rfl := Option.some.inj hy
      exact ⟨es, if_pos rfl, hes⟩

/-- the state after the triangles `done` -/
def Joined (m₀ : Mesh α) (done : List (Triple VertexId × TriangleId)) (m : Mesh α) : Prop :=
  Joining m₀ ((sidesAmong done).map Prod.fst) (sidesAmong done) m ∧ Sided done m

/-- the state in which triangle `t` after the triangles `done` left the mesh that it stopped on -/
def Halted (m₀ : Mesh α) (done : List (Triple VertexId × TriangleId)) (t : TriangleId)
    (m : Mesh α) : Prop :=
  ∃ keys rest, Joining m₀ keys (sidesAmong done ++ rest) m ∧ Sided done m ∧ ∀ p ∈ rest, p.2 = t

/-- triangle `x` after the triangles `done` left the mesh that it stopped on at the side `k`, which had
two triangles already -/
def Stuck (m₀ : Mesh α) (done : List (Triple VertexId × TriangleId))
    (x : Triple VertexId × TriangleId) (k : VertexId × VertexId) (m : Mesh α) : Prop :=
  ∃ keys rest post, sidesAmong [x] = rest ++ (k, x.2) :: post ∧
    (owners (sidesAmong done ++ rest) k).length = 2 ∧
    Joining m₀ keys (sidesAmong done ++ rest) m ∧ Sided done m

theorem Stuck.halted {done : List (Triple VertexId × TriangleId)}
    {x : Triple VertexId × TriangleId} {k : VertexId × VertexId} (h : Stuck m₀ done x k m) :
    Halted m₀ done x.2 m := by
  obtain ⟨keys, rest, post, hsplit, _, hjoin, hsided⟩ := h
  refine ⟨keys, rest, hjoin, hsided, fun p hp => ?_⟩
  have hmem : (p.1, p.2) ∈ sidesAmong [x] := by
    rw [hsplit]
    exact List.mem_append_left _ hp
  obtain ⟨vs, hx, _⟩ := mem_sidesAmong.mp hmem
  exact (congrArg Prod.snd (List.mem_singleton.mp hx) :)

/-- the third triangle of the pair `k` is the next one in reading order -/
theorem Stuck.next {pre post : List (Triple VertexId × TriangleId)}
    {x : Triple VertexId × TriangleId} {k : VertexId × VertexId} (h : Stuck m₀ pre x k m)
    (hsplit : m₀.numberedTriangles = pre ++ x :: post) :
    ∃ before t after, m₀.sideList = before ++ (k, t) :: after ∧ (owners before k).length = 2 ∧
      ∀ k', (owners before k').length ≤ 2 := by
  obtain ⟨_, rest, last, hsides, hfull, hjoin, _⟩ := h
  refine ⟨sidesAmong pre ++ rest, x.2, last ++ sidesAmong post, ?_, hfull, hjoin.few⟩
  have e : pre ++ x :: post = pre ++ [x] ++ post := by simp
  rw [sideList, hsplit, e, sidesAmong_append, sidesAmong_append, hsides]
  simp

theorem joinTriangle_of_sides {x : Triple VertexId × TriangleId} {m₁ m₂ m₃ : Mesh α}
    {e₁ e₂ e₃ : EdgeId} (h₁ : m.joinSide x.2 x.1.a x.1.b = .ok (m₁, e₁))
    (h₂ : m₁.joinSide x.2 x.1.b x.1.c = .ok (m₂, e₂))
    (h₃ : m₂.joinSide x.2 x.1.c x.1.a = .ok (m₃, e₃)) :
    m.joinTriangle x = .ok { m₃ with triangleEdges := m₃.triangleEdges.push ⟨e₁, e₂, e₃⟩ } := by
  unfold joinTriangle
  simp only [h₁, h₂, h₃, bind, Except.bind]
  rfl

theorem Joined.push {done : List (Triple VertexId × TriangleId)}
    {x : Triple VertexId × TriangleId} {m₃ : Mesh α} {e₁ e₂ e₃ : EdgeId}
    (h : Joined m₀ done m) (hext : Extends m m₃)
    (hjoin : Joining m₀ ((sidesAmong done).map Prod.fst ++ [x.1.keys.a] ++ [x.1.keys.b]
      ++ [x.1.keys.c]) (sidesAmong done ++ [(x.1.keys.a, x.2)] ++ [(x.1.keys.b, x.2)]
      ++ [(x.1.keys.c, x.2)]) m₃)
    (he₁ : m₃.edgeIndex[x.1.keys.a]? = some e₁) (he₂ : m₃.edgeIndex[x.1.keys.b]? = some e₂)
    (he₃ : m₃.edgeIndex[x.1.keys.c]? = some e₃) :
    Joined m₀ (done ++ [x]) { m₃ with triangleEdges := m₃.triangleEdges.push ⟨e₁, e₂, e₃⟩ } := by
  refine ⟨?_, h.2.push hext fun j => ?_⟩
  · rw [sidesAmong_append, sidesAmong_singleton, List.map_append]
    simp only [List.append_assoc, List.singleton_append] at hjoin
    exact hjoin.finish _
  · match j with
    | 0 => exact he₁
    | 1 => exact he₂
    | 2 => exact he₃

theorem joinTriangle_of_error {x : Triple VertexId × TriangleId} {stopped : Interrupted α}
    (h : m.joinSide x.2 x.1.a x.1.b = .error stopped ∨
      (∃ m₁ e₁, m.joinSide x.2 x.1.a x.1.b = .ok (m₁, e₁) ∧
        m₁.joinSide x.2 x.1.b x.1.c = .error stopped) ∨
      (∃ m₁ e₁ m₂ e₂, m.joinSide x.2 x.1.a x.1.b = .ok (m₁, e₁) ∧
        m₁.joinSide x.2 x.1.b x.1.c = .ok (m₂, e₂) ∧
        m₂.joinSide x.2 x.1.c x.1.a = .error stopped)) :
    m.joinTriangle x = .error stopped := by
  unfold joinTriangle
  rcases h with h | ⟨m₁, e₁, h₁, h⟩ | ⟨m₁, e₁, m₂, e₂, h₁, h₂, h⟩
  · simp only [h, bind, Except.bind]
  · simp only [h₁, h, bind, Except.bind]
  · simp only [h₁, h₂, h, bind, Except.bind]

/-- a triangle is recorded unless one of its sides gets a third triangle -/
theorem Joined.joinTriangle {done : List (Triple VertexId × TriangleId)} (h : Joined m₀ done m)
    (x : Triple VertexId × TriangleId) :
    (∃ m', m.joinTriangle x = .ok m' ∧ Joined m₀ (done ++ [x]) m') ∨
    (∃ m' k, m.joinTriangle x = .error ⟨m', .mesh (.nonManifoldEdge k.1 k.2)⟩ ∧
      Stuck m₀ done x k m') := by
  have hsides := sidesAmong_singleton x
  rcases h.1.joinSide x.2 x.1.a x.1.b with ⟨_, m₁, e₁, h₁, he₁, hext₁, hj₁⟩ |
    ⟨hfull, m', herr, hext, hj⟩
  · rcases hj₁.joinSide x.2 x.1.b x.1.c with ⟨_, m₂, e₂, h₂, he₂, hext₂, hj₂⟩ |
      ⟨hfull, m', herr, hext, hj⟩
    · rcases hj₂.joinSide x.2 x.1.c x.1.a with
        ⟨_, m₃, e₃, h₃, he₃, hext₃, hj₃⟩ | ⟨hfull, m', herr, hext, hj⟩
      · exact .inl ⟨_, joinTriangle_of_sides h₁ h₂ h₃,
          h.push ((hext₁.trans hext₂).trans hext₃) hj₃ (hext₃.index (hext₂.index he₁))
            (hext₃.index he₂) he₃⟩
      · have herr' := joinTriangle_of_error (.inr (.inr ⟨m₁, e₁, m₂, e₂, h₁, h₂, herr⟩))
        rw [List.append_assoc (sidesAmong done)] at hfull hj
        exact .inr ⟨m', x.1.keys.c, herr', _, [(x.1.keys.a, x.2), (x.1.keys.b, x.2)], [], hsides,
          hfull, hj, h.2.extend ((hext₁.trans hext₂).trans hext)⟩
    · have herr' := joinTriangle_of_error (.inr (.inl ⟨m₁, e₁, h₁, herr⟩))
      exact .inr ⟨m', x.1.keys.b, herr', _, [(x.1.keys.a, x.2)], [(x.1.keys.c, x.2)], hsides,
        hfull, hj, h.2.extend (hext₁.trans hext)⟩
  · rw [← List.append_nil (sidesAmong done)] at hfull hj
    exact .inr ⟨m', x.1.keys.a, joinTriangle_of_error (.inl herr), _, [],
      [(x.1.keys.b, x.2), (x.1.keys.c, x.2)], hsides, hfull, hj, h.2.extend hext⟩

theorem Joined.of_joinTriangle {done : List (Triple VertexId × TriangleId)} (h : Joined m₀ done m)
    {x : Triple VertexId × TriangleId} (hstep : m.joinTriangle x = .ok m') :
    Joined m₀ (done ++ [x]) m' := by
  rcases h.joinTriangle x with ⟨s, hs, hjoined⟩ | ⟨s, k, hs, _⟩
  · rw [hs] at hstep
    obtain rfl := Except.ok.inj hstep
    exact hjoined
  · rw [hs] at hstep
    cases hstep

/-! ## all triangles -/

theorem Tabled.joined_nil (h : m.Tabled) : Joined m [] m.clearAdjacency where
  left :=
    { tabled := ⟨h.index_of_edge, h.edge_of_index, h.ends_le, by
        show (m.edgeTriangles.map _).size = m.edges.size
        rw [Array.size_map]
        exact h.size_eq⟩
      frame := rfl
      read := fun _ hk => hk
      old := id
      fresh := .inl
      pairs_eq := by
        show m.pairs = (m.pairs ++ []).eraseDups
        rw [List.append_nil, eraseDups_eq_self h.pairs_nodup]
      present := by
        intro e x hx
        have hlt := (Array.getElem?_eq_some_iff.mp hx).1
        change e < m.edges.size at hlt
        show (m.edgeTriangles.map fun _ => [])[e]? = some []
        rw [← h.size_eq] at hlt
        rw [Array.getElem?_map, Array.getElem?_eq_getElem hlt]
        rfl
      few := fun k => Nat.zero_le 2 }
  right := ⟨rfl, fun hi => absurd hi (by simp)⟩

/-- the sides of all triangles of a mesh recorded -/
theorem joinAll_spec (h : m.Tabled)
    (hok : m.numberedTriangles.foldlM Mesh.joinTriangle m.clearAdjacency = .ok m') :
    Joined m m.numberedTriangles m' := by
  exact foldlM_record (fun _ _ _ _ _ _ hs hstep => hs.of_joinTriangle hstep) h.joined_nil hok

/-- the sides of all triangles up to one with a side that has two triangles already -/
theorem joinAll_stuck (h : m.Tabled) {stopped : Interrupted α}
    (hstop : m.numberedTriangles.foldlM Mesh.joinTriangle m.clearAdjacency = .error stopped) :
    ∃ pre x post k, m.numberedTriangles = pre ++ x :: post ∧
      stopped.fault = .mesh (.nonManifoldEdge k.1 k.2) ∧ Stuck m pre x k stopped.mesh := by
  obtain ⟨pre, x, post, s, hsplit, hs, hstep⟩ := foldlM_stopped (P := Joined m)
    (fun _ _ _ _ _ _ hs hstep => hs.of_joinTriangle hstep) h.joined_nil hstop
  rcases hs.joinTriangle x with ⟨s', hs', _⟩ | ⟨s', k, hs', hstuck⟩
  · rw [hs'] at hstep
    cases hstep
  · rw [hs'] at hstep
    obtain rfl := Except.error.inj hstep
    exact ⟨pre, x, post, k, hsplit, rfl, hstuck⟩

/-! ## the whole update -/

omit [Scalar α] in
/-- a table without useless edges loses none -/
theorem dropUnusedEdges_of_used
    (used : ∀ {e : EdgeId} {x : Edge α} {ts : List TriangleId}, m.edges[e]? = some x →
      m.edgeTriangles[e]? = some ts → x.isFeature = true ∨ ts ≠ []) :
    m.dropUnusedEdges = .ok m := by
  unfold dropUnusedEdges
  have hall : (m.edges.toList.zip m.edgeTriangles.toList).all isUsed = true := by
    rw [List.all_eq_true]
    intro slot hslot
    obtain ⟨i, hi⟩ := List.mem_iff_getElem?.mp hslot
    rw [List.getElem?_zip_eq_some] at hi
    obtain ⟨hx, hts⟩ := hi
    rw [Array.getElem?_toList] at hx hts
    rw [isUsed]
    rcases used hx hts with hf | hne
    · rw [hf, Bool.true_or]
    · simp [hne]
  simp only [hall, if_true]

/-- the adjacency of `m` is that of its triangles -/
structure Adjacent (m : Mesh α) : Prop where
  size : m.triangleEdges.size = m.triangles.size
  side : ∀ {t : TriangleId} {vs}, m.triangles[t]? = some vs →
    ∃ es, m.triangleEdges[t]? = some es ∧ ∀ j, m.edgeIndex[vs.keys.get j]? = some (es.get j)
  present : ∀ {e : EdgeId} {x : Edge α}, m.edges[e]? = some x →
    m.edgeTriangles[e]? = some (m.trianglesOn x.ends)
  few : ∀ k, (m.trianglesOn k).length ≤ 2

/-- `m'` is `m` with edges and adjacency up to date, all old edges kept -/
structure Updated (m m' : Mesh α) : Prop where
  tabled : m'.Tabled
  adjacent : m'.Adjacent
  frame : m'.withoutEdges = m.withoutEdges
  old : ∀ {e : EdgeId} {x : Edge α}, m.edges[e]? = some x → m'.edges[e]? = some x
  fresh : ∀ {e : EdgeId} {x : Edge α}, m'.edges[e]? = some x → m.edges[e]? = some x ∨
    ∃ a b, x = plainEdge a b ∧ m.trianglesOn (edgeKey a b) ≠ []
  /-- new pairs come after the old ones, as they first occur in reading order -/
  pairs_eq : m'.pairs = (m.pairs ++ m.sideList.map Prod.fst).eraseDups

omit [Scalar α] in
theorem trianglesOn_of_withoutEdges (h : m'.withoutEdges = m.withoutEdges)
    (k : VertexId × VertexId) : m'.trianglesOn k = m.trianglesOn k := by
  unfold trianglesOn sideList numberedTriangles
  rw [triangles_of_withoutEdges h]

theorem Joined.updated (h : Joined m m.numberedTriangles m') : Updated m m' where
  tabled := h.1.tabled
  adjacent :=
    { size := by
        rw [h.2.size, triangles_of_withoutEdges h.1.frame, numberedTriangles, List.length_zipIdx,
          Array.length_toList]
      side := by
        intro t vs hvs
        rw [triangles_of_withoutEdges h.1.frame] at hvs
        exact h.2.side (x := (vs, t)) (by
          rw [numberedTriangles, List.getElem?_zipIdx, Array.getElem?_toList, hvs, Nat.zero_add]
          rfl)
      present := by
        intro e x hx
        rw [h.1.present hx, trianglesOn_of_withoutEdges h.1.frame]
        rfl
      few := by
        intro k
        rw [trianglesOn_of_withoutEdges h.1.frame]
        exact h.1.few k }
  frame := h.1.frame
  old := h.1.old
  fresh := by
    intro e x hx
    rcases h.1.fresh hx with hold | ⟨a, b, hx', hk⟩
    · exact .inl hold
    · exact .inr ⟨a, b, hx', owners_ne_nil.mpr hk⟩
  pairs_eq := h.1.pairs_eq

section
variable (used : ∀ {e : EdgeId} {x : Edge α}, m.edges[e]? = some x →
  x.isFeature = true ∨ m.trianglesOn x.ends ≠ [])
include used

theorem Updated.dropUnusedEdges (h : Updated m m') : m'.dropUnusedEdges = .ok m' := by
  refine dropUnusedEdges_of_used fun {e x ts} hx hts => ?_
  rw [h.adjacent.present hx] at hts
  obtain rfl := Option.some.inj hts
  rw [trianglesOn_of_withoutEdges h.frame]
  rcases h.fresh hx with hold | ⟨a, b, rfl, hne⟩
  · exact used hold
  · exact .inr hne

/-- a completed update of edges and adjacency -/
theorem updateEdges_spec (h : m.Tabled) (hok : m.updateEdges = .ok m') : Updated m m' := by
  obtain ⟨joined, hjoin, hdrop⟩ := bind_eq_ok_iff.mp hok
  have hup := (joinAll_spec h hjoin).updated
  rw [leaving_eq_ok_iff, hup.dropUnusedEdges used] at hdrop
  exact Except.ok.inj hdrop ▸ hup

/-- an update stops on a side whose pair has two triangles already -/
theorem updateEdges_stopped (h : m.Tabled) {stopped : Interrupted α}
    (hstop : m.updateEdges = .error stopped) :
    ∃ before k t after, m.sideList = before ++ (k, t) :: after ∧ (owners before k).length = 2 ∧
      (∀ k', (owners before k').length ≤ 2) ∧
      stopped.fault = .mesh (.nonManifoldEdge k.1 k.2) := by
  rcases bind_eq_error_iff.mp hstop with hjoin | ⟨joined, hjoin, hdrop⟩
  · obtain ⟨pre, x, post, k, hsplit, hfault, hstuck⟩ := joinAll_stuck h hjoin
    obtain ⟨before, t, after, hside, hfull, hfew⟩ := hstuck.next hsplit
    exact ⟨before, k, t, after, hside, hfull, hfew, hfault⟩
  · rw [(joinAll_spec h hjoin).updated.dropUnusedEdges used] at hdrop
    cases hdrop

/-- the update completes when no pair is the side of a third triangle -/
theorem updateEdges_total (h : m.Tabled) (few : ∀ k, (m.trianglesOn k).length ≤ 2) :
    ∃ m', m.updateEdges = .ok m' := by
  cases hok : m.updateEdges with
  | ok m' => exact ⟨m', rfl⟩
  | error stopped =>
    obtain ⟨before, k, t, after, hside, hfull, _⟩ := updateEdges_stopped used h hok
    have hle := few k
    rw [trianglesOn, hside, length_owners_next] at hle
    omega

end
end
end Mesh
end DiskCut
