import DiskCut.Scalar

/-!
# Priority queues

A queue is a set of entries under an order; the entry that is first in the order leaves first.
The entries of one queue are pairwise different, so a set loses nothing.
-/

namespace DiskCut
open Std

/-- entries waiting under the order `cmp` -/
abbrev Queue (β : Type) (cmp : β → β → Ordering) := ExtTreeSet β cmp

namespace Queue
variable {β : Type} {cmp : β → β → Ordering} [TransCmp cmp]

/-- the entry that leaves first -/
def first? (q : Queue β cmp) : Option β := Id.run do
  for entry in q do return some entry
  return none

/-- the first entry and the queue without it -/
def pop? (q : Queue β cmp) : Option (β × Queue β cmp) :=
  match first? q with
  | none => none
  | some first => some (first, q.erase first)

theorem first?_eq_min? (q : Queue β cmp) : first? q = q.min? := by
  rw [ExtTreeSet.min?_eq_head?_toList]
  unfold first?
  simp only [ExtTreeSet.forIn_eq_forIn_toList]
  cases q.toList <;> simp

theorem pop?_eq_none_iff {q : Queue β cmp} : pop? q = none ↔ q = ∅ := by
  rw [← ExtTreeSet.min?_eq_none_iff, ← first?_eq_min?]
  unfold pop?
  split <;> simp_all

theorem min?_of_pop? {q rest : Queue β cmp} {first : β} (h : pop? q = some (first, rest)) :
    q.min? = some first := by
  rw [← first?_eq_min?]
  unfold pop? at h
  split at h
  · cases h
  · rename_i x hx
    cases h
    exact hx

theorem mem_of_pop? {q rest : Queue β cmp} {first : β} (h : pop? q = some (first, rest)) :
    first ∈ q :=
  ExtTreeSet.min?_mem (min?_of_pop? h)

theorem rest_of_pop? {q rest : Queue β cmp} {first : β} (h : pop? q = some (first, rest)) :
    rest = q.erase first := by
  unfold pop? at h
  split at h
  · cases h
  · cases h; rfl

/-- nothing in the queue comes before the entry that leaves -/
theorem isLE_of_pop? {q rest : Queue β cmp} {first other : β} (h : pop? q = some (first, rest))
    (mem : other ∈ q) : (cmp first other).isLE := by
  have hle := ExtTreeSet.min?_le_of_mem mem rfl
  simpa [min?_of_pop? h] using hle

end Queue
end DiskCut
