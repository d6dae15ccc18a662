/-!
# Faults

* `MeshError`   why a mesh or a stage refuses its input, with the wording in `MeshError.message`
* `Fault`       a refusal, an access that the data does not allow, or a loop cut short
* `fetch`, `alter`, `less`   reading and changing an array place, and subtraction, each of them
                checked: an index outside the array and a difference below zero are faults, never
                a default value

Every array place that the library reads or writes by index goes through `fetch` and `alter`, and
every loop has a bound, so "no stage leaves its arrays or runs on" is a statement about the faults it
can return.
-/

namespace DiskCut

/-- why a mesh or a stage refuses its input -/
inductive MeshError where
  /-- a triangle or segment, numbered `element`, names a vertex that is not there -/
  | invalidVertexIndex (element vertex : Nat)
  | vertexOutOfRange (vertex numVertices : Nat)
  /-- a triangle names a vertex twice -/
  | degenerateTriangle (triangle : Nat)
  /-- an edge is a side of a third triangle -/
  | nonManifoldEdge (u v : Nat)
  /-- a feature segment is no side of a triangle -/
  | featureEdgeNotFound (u v : Nat)
  /-- a side of a triangle is not in the edge set -/
  | missingEdge (u v : Nat)
  | unknownSurface (tag : Int)
  /-- a vertex is designated with two different singularity indices -/
  | conflictingSingularity (vertex : Nat) (first second : Int)
  /-- a feature vertex has other than two feature edges -/
  | featureValence (vertex count : Nat)
  /-- a feature edge at the vertex is not bounded by exactly one triangle -/
  | notSplitAlongFeatures (vertex : Nat)
  /-- the triangle at a feature edge has no other edge at the vertex -/
  | missingReferenceEdge (vertex : Nat)
deriving DecidableEq, Repr

/-- the wording of an error -/
def MeshError.message : MeshError → String
  | .invalidVertexIndex element vertex =>
    s!"element {element} references invalid vertex index {vertex}"
  | .vertexOutOfRange vertex numVertices =>
    s!"vertex {vertex} is out of range for a mesh of {numVertices} vertices"
  | .degenerateTriangle triangle =>
    s!"triangle {triangle} is degenerate (has duplicate vertices)"
  | .nonManifoldEdge u v => s!"edge ({u}, {v}) has more than two incident triangles"
  | .featureEdgeNotFound u v => s!"cannot find feature edge ({u}, {v}) in mesh edges"
  | .missingEdge u v => s!"reached edge ({u}, {v}) not listed in the edge set"
  | .unknownSurface tag => s!"model has no surface with tag {tag}"
  | .conflictingSingularity vertex first second =>
    s!"vertex {vertex} is both a singularity of index {first} and of index {second}"
  | .featureValence vertex count =>
    s!"feature vertex {vertex} has {count} incident feature edges, expected 2"
  | .notSplitAlongFeatures vertex =>
    s!"mesh is not split along feature edges at vertex {vertex}"
  | .missingReferenceEdge vertex =>
    s!"cannot find reference edge for orientability at vertex {vertex}"

/-- how a computation stops short -/
inductive Fault where
  /-- an index outside its array -/
  | outOfRange
  /-- a difference of counts below zero -/
  | belowZero
  /-- a loop cut short by its bound -/
  | unfinished
  | mesh (cause : MeshError)
deriving DecidableEq, Repr

/-! ## checked access -/

/-- the value at place `i` -/
def fetch {β : Type} (xs : Array β) (i : Nat) : Except Fault β :=
  match xs[i]? with
  | some x => .ok x
  | none => .error .outOfRange

/-- the array with the value at place `i` changed by `f` -/
def alter {β : Type} (xs : Array β) (i : Nat) (f : β → β) : Except Fault (Array β) :=
  if i < xs.size then .ok (xs.modify i f) else .error .outOfRange

/-- the difference `n - k`, a fault when `k` is larger -/
def less (n k : Nat) : Except Fault Nat :=
  if k ≤ n then .ok (n - k) else .error .belowZero

section
variable {β : Type} {xs : Array β} {i : Nat}

theorem fetch_eq_ok_iff {x : β} : fetch xs i = .ok x ↔ xs[i]? = some x := by
  unfold fetch
  split <;> simp_all

theorem fetch_of_lt (h : i < xs.size) : fetch xs i = .ok xs[i] := by
  simp [fetch, h]

theorem alter_eq_ok_iff {f : β → β} {ys : Array β} :
    alter xs i f = .ok ys ↔ i < xs.size ∧ ys = xs.modify i f := by
  by_cases h : i < xs.size <;> simp [alter, h, eq_comm]

theorem alter_of_lt {f : β → β} (h : i < xs.size) : alter xs i f = .ok (xs.modify i f) := by
  simp [alter, h]

theorem less_eq_ok_iff {n k d : Nat} : less n k = .ok d ↔ k ≤ n ∧ d = n - k := by
  by_cases h : k ≤ n <;> simp [less, h, eq_comm]

theorem less_of_le {n k : Nat} (h : k ≤ n) : less n k = .ok (n - k) := by
  simp [less, h]

end

/-! ## computations that may stop -/

section
variable {ε ε' β γ : Type}

theorem ok_bind (y : β) (f : β → Except ε γ) : (Except.ok y >>= f) = f y := rfl

theorem bind_eq_ok_iff {x : Except ε β} {f : β → Except ε γ} {z : γ} :
    x >>= f = .ok z ↔ ∃ y, x = .ok y ∧ f y = .ok z := by
  cases x <;> simp [bind, Except.bind]

theorem bind_eq_error_iff {x : Except ε β} {f : β → Except ε γ} {fault : ε} :
    x >>= f = .error fault ↔ x = .error fault ∨ ∃ y, x = .ok y ∧ f y = .error fault := by
  cases x <;> simp [bind, Except.bind]

theorem map_eq_ok_iff {x : Except ε β} {f : β → γ} {z : γ} :
    f <$> x = .ok z ↔ ∃ y, x = .ok y ∧ f y = z := by
  cases x <;> simp [Functor.map, Except.map]

theorem pure_eq_ok_iff {y z : β} : (pure y : Except ε β) = .ok z ↔ y = z := by
  simp [pure, Except.pure]

theorem mapError_ok {f : ε → ε'} {y : β} :
    (Except.ok y : Except ε β).mapError f = .ok y := rfl

theorem mapError_error {f : ε → ε'} {cause : ε} :
    (Except.error cause : Except ε β).mapError f = .error (f cause) := rfl

theorem mapError_eq_ok_iff {x : Except ε β} {f : ε → ε'} {y : β} :
    x.mapError f = .ok y ↔ x = .ok y := by
  cases x <;> simp [mapError_ok, mapError_error]

theorem mapError_eq_error_iff {x : Except ε β} {f : ε → ε'} {fault : ε'} :
    x.mapError f = .error fault ↔ ∃ cause, x = .error cause ∧ f cause = fault := by
  cases x <;> simp [mapError_ok, mapError_error]

/-- what every step of a fold keeps holds at its end -/
theorem foldlM_invariant {σ : Type} {P : σ → Prop} {f : σ → β → Except ε σ} {xs : List β}
    (keep : ∀ s x next, x ∈ xs → P s → f s x = .ok next → P next) {s last : σ} (start : P s)
    (h : xs.foldlM f s = .ok last) : P last := by
  induction xs generalizing s with
  | nil =>
    rw [List.foldlM_nil, pure_eq_ok_iff] at h
    exact h ▸ start
  | cons x xs ih =>
    rw [List.foldlM_cons, bind_eq_ok_iff] at h
    obtain ⟨next, hstep, hrest⟩ := h
    exact ih (fun s y next hy => keep s y next (List.mem_cons_of_mem _ hy))
      (keep s x next List.mem_cons_self start hstep) hrest

end
end DiskCut
