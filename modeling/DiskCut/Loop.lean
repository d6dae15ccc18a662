import DiskCut.Fault

/-!
# Bounded loops

A worklist is run by repeating a step until the step finds nothing to do.

* `repeatWhile`            such a loop, with a bound on the number of steps
* `repeatWhile_invariant`  what every step keeps holds at the end, where no step is left
* `repeatWhile_of_le`      the bound decides whether there is a result, not which

The bound is computed from the input by the caller and makes the loop structurally recursive.  A loop
that reaches it is cut short, and that is a fault.  So "the loop has a result" says that the loop
comes to an end, and a theorem that a stage has a result says so of every loop in it.
-/

namespace DiskCut

/-- repeat `step` until it gives none, which it has to do before it was taken `bound` times -/
def repeatWhile {σ : Type} (step : σ → Except Fault (Option σ)) : Nat → σ → Except Fault σ
  | 0, _ => .error .unfinished
  | bound + 1, s =>
    match step s with
    | .error fault => .error fault
    | .ok none => .ok s
    | .ok (some next) => repeatWhile step bound next

section
variable {σ : Type} {step : σ → Except Fault (Option σ)}

theorem repeatWhile_of_done {s : σ} {bound : Nat} (h : step s = .ok none) :
    repeatWhile step (bound + 1) s = .ok s := by
  simp [repeatWhile, h]

theorem repeatWhile_of_step {s next : σ} {bound : Nat} (h : step s = .ok (some next)) :
    repeatWhile step (bound + 1) s = repeatWhile step bound next := by
  simp [repeatWhile, h]

/-- what every step keeps holds at the end, where no step is left -/
theorem repeatWhile_invariant {P : σ → Prop}
    (keep : ∀ s next, P s → step s = .ok (some next) → P next) {bound : Nat} {s last : σ}
    (start : P s) (h : repeatWhile step bound s = .ok last) : P last ∧ step last = .ok none := by
  induction bound generalizing s with
  | zero => cases h
  | succ bound ih =>
    unfold repeatWhile at h
    split at h
    · cases h
    · rename_i hdone
      cases h
      exact ⟨start, hdone⟩
    · rename_i next hstep
      exact ih (keep s next start hstep) h

/-- the bound decides whether there is a result, not which -/
theorem repeatWhile_of_le {bound larger : Nat} {s last : σ} (hle : bound ≤ larger)
    (h : repeatWhile step bound s = .ok last) : repeatWhile step larger s = .ok last := by
  induction bound generalizing s larger with
  | zero => cases h
  | succ bound ih =>
    obtain ⟨larger, rfl⟩ := Nat.exists_eq_add_one_of_ne_zero (Nat.ne_zero_of_lt hle)
    unfold repeatWhile at h ⊢
    split at h
    · cases h
    · exact h
    · exact ih (Nat.le_of_succ_le_succ hle) h

end
end DiskCut
