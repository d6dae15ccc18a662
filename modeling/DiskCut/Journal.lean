import DiskCut.Fault
import DiskCut.Vec3

/-!
# Journals

A computation may tell its caller two kinds of things while it runs: warnings about degenerate
input that it works around, and the intermediate results of its stages.  Both go, in order, into
a journal that is kept also when the computation stops short.

* `Warning`    what can be worked around, with the wording in `Warning.message`
* `Payload`    an intermediate result: scalars or vectors at points, or segments
* `Logged α β` a result of type `β` or a fault, with the journal written on the way

`Logged` is a monad, and `result` forgets the journals: `result_bind`, `result_pure`,
`result_warn`, `result_emit`, `result_lift` and `result_mapM` reduce every law about results to one
about `Except Fault`.
-/

namespace DiskCut

/-- degenerate input that a computation works around -/
inductive Warning where
  | nothingToBuild
  | emptySurface (tag : Int)
  | noTriangles
  /-- neither a feature edge nor a singularity -/
  | nothingToAnchor
  /-- so many vertices of triangles that no distance reaches -/
  | unconnected (count : Nat)
  | degenerateAt (vertex : Nat)
deriving DecidableEq, Repr

/-- the wording of a warning -/
def Warning.message : Warning → String
  | .nothingToBuild => "no triangles to build from, mesh is empty"
  | .emptySurface tag => s!"surface {tag} has no triangles, mesh is empty"
  | .noTriangles => "Mesh has no triangles, cut graph is empty"
  | .nothingToAnchor => "No feature edges and no singularities, cut graph is empty"
  | .unconnected count => s!"{count} vertices are not connected to any feature or singularity"
  | .degenerateAt vertex => s!"Degenerate geometry at feature vertex {vertex}, using world frame"

/-- an intermediate result -/
inductive Payload (α : Type) where
  /-- a scalar at each point -/
  | scalars (items : List (Vec3 α × α))
  /-- a vector at each point -/
  | vectors (items : List (Vec3 α × Vec3 α))
  /-- segments -/
  | lines (items : List (Vec3 α × Vec3 α))

def Payload.size {α : Type} : Payload α → Nat
  | scalars items => items.length
  | vectors items => items.length
  | lines items => items.length

def Payload.isEmpty {α : Type} (p : Payload α) : Bool := p.size == 0

/-- how a receiver of payloads is shown, whatever it does with them -/
def receiverText : String := "Inspector \x7b .. \x7d"

/-- the intermediate results that are made known -/
inductive Stage where
  | normals
  | distances
  | candidates
  | cutGraph
  | frames
deriving DecidableEq, Repr

def Stage.name : Stage → String
  | .normals => "normals"
  | .distances => "distances"
  | .candidates => "cut_graph_candidates"
  | .cutGraph => "cut_graph"
  | .frames => "darboux_frames"

/-- a line of a journal -/
inductive Entry (α : Type) where
  | warning (w : Warning)
  | event (stage : Stage) (payload : Payload α)

def Entry.warning? {α : Type} : Entry α → Option Warning
  | warning w => some w
  | event _ _ => none

def Entry.event? {α : Type} : Entry α → Option (Stage × Payload α)
  | warning _ => none
  | event stage payload => some (stage, payload)

/-- a result or a fault, and the journal written before it -/
structure Logged (α β : Type) where
  journal : List (Entry α)
  result : Except Fault β

namespace Logged
variable {α β γ : Type}

def pure (x : β) : Logged α β := ⟨[], .ok x⟩

/-- run `x`, then `f` on its result; the journals follow each other -/
def bind (x : Logged α β) (f : β → Logged α γ) : Logged α γ :=
  match x.result with
  | .error fault => ⟨x.journal, .error fault⟩
  | .ok y => ⟨x.journal ++ (f y).journal, (f y).result⟩

instance : Monad (Logged α) where
  pure := Logged.pure
  bind := Logged.bind

def warn (w : Warning) : Logged α Unit := ⟨[.warning w], .ok ()⟩

def emit (stage : Stage) (payload : Payload α) : Logged α Unit :=
  ⟨[.event stage payload], .ok ()⟩

/-- a computation that writes nothing -/
def lift (x : Except Fault β) : Logged α β := ⟨[], x⟩

/-- a computation that writes nothing and may refuse its input -/
def require (x : Except MeshError β) : Logged α β := lift (x.mapError .mesh)

def fail (fault : Fault) : Logged α β := ⟨[], .error fault⟩

/-- the same computation, its fault told in other words -/
def mapFault (f : Fault → Fault) (x : Logged α β) : Logged α β :=
  { x with result := x.result.mapError f }

def warnings (x : Logged α β) : List Warning := x.journal.filterMap Entry.warning?

def events (x : Logged α β) : List (Stage × Payload α) := x.journal.filterMap Entry.event?

theorem bind_pure_self (x : Logged α β) : Logged.bind x Logged.pure = x := by
  obtain ⟨journal, result⟩ := x
  cases result <;> simp [Logged.bind, Logged.pure]

theorem bind_assoc_self {δ : Type} (x : Logged α β) (f : β → Logged α γ) (g : γ → Logged α δ) :
    Logged.bind (Logged.bind x f) g = Logged.bind x fun y => Logged.bind (f y) g := by
  obtain ⟨journal, result⟩ := x
  cases result with
  | error => rfl
  | ok y =>
    cases h : (f y).result <;> simp [Logged.bind, h]

instance : LawfulMonad (Logged α) :=
  LawfulMonad.mk' _ bind_pure_self (fun x f => by
    change Logged.bind (Logged.pure x) f = f x
    simp [Logged.bind, Logged.pure]) bind_assoc_self

/-! ## the result without the journal -/

@[simp] theorem result_pure (x : β) : (Pure.pure x : Logged α β).result = .ok x := rfl

@[simp] theorem result_bind (x : Logged α β) (f : β → Logged α γ) :
    (x >>= f).result = x.result >>= fun y => (f y).result := by
  change (Logged.bind x f).result = _
  unfold Logged.bind
  cases x.result <;> rfl

@[simp] theorem result_warn (w : Warning) : (warn w : Logged α Unit).result = .ok () := rfl

@[simp] theorem result_emit (stage : Stage) (payload : Payload α) :
    (emit stage payload).result = .ok () := rfl

@[simp] theorem result_lift (x : Except Fault β) : (lift x : Logged α β).result = x := rfl

@[simp] theorem result_require (x : Except MeshError β) :
    (require x : Logged α β).result = x.mapError .mesh := rfl

@[simp] theorem result_fail (fault : Fault) :
    (fail fault : Logged α β).result = .error fault := rfl

@[simp] theorem result_mapFault (f : Fault → Fault) (x : Logged α β) :
    (x.mapFault f).result = x.result.mapError f := rfl

theorem result_mapM (f : β → Logged α γ) (xs : List β) :
    (xs.mapM f).result = xs.mapM fun x => (f x).result := by
  induction xs with
  | nil => rfl
  | cons x xs ih =>
    simp only [List.mapM_cons, result_bind, result_pure, ih]
    rfl

/-- a part of a computation keeps its journal when the rest fails -/
theorem journal_bind_of_error {x : Logged α β} {fault : Fault} (f : β → Logged α γ)
    (h : x.result = .error fault) : (x >>= f).journal = x.journal := by
  change (Logged.bind x f).journal = _
  simp [Logged.bind, h]

end Logged
end DiskCut
