import DiskCut.Loop
import Mathlib.Data.List.Forall2

/-!
# Folds and loops that may stop

What a computation `xs.foldlM f s` has done so far is a prefix of `xs`; an invariant may speak of
that prefix.

* `yields x p`        a computation with a result that passes a test
* `stopsWith x fault` a computation with a given fault
* `foldlM_record`     what every step keeps, prefix included, holds at the end
* `foldlM_stopped`    and at the step that stops, for the prefix before it
* `foldlM_total`      a fold whose steps all succeed succeeds, and keeps the same
* `foldlM_cases`      a fold that keeps an invariant or stops in a known way
* `foldlM_congr`      folds with equal steps are equal
* `foldlM_flatMap`    a fold of folds is one fold
* `mapM_eq_ok_iff`, `mapM_spec`, `mapM_mapM_spec`, `mapM_total`, `mapM_stopped`   the members of a
                      list computed one by one
* `filterM_eq_ok`, `filterM_total`   the members of a list chosen by a test that may stop
* `repeatWhile_spec`  a bound above a rank that every step lowers is never reached
* `Recorded`          the states that the steps of a loop lead to, with a record of the steps
* `size_erase_add_one`  such a rank may be the size of a set
* `mem_ofList_iff`    the members of a set made from a list
* `eraseDups_eq_self`, `eraseDups_concat_of_mem`, `eraseDups_concat_of_not_mem`   the members of a
                      list in the order in which they first occur
-/

namespace DiskCut
open Std
variable {ε β γ σ : Type}

/-! ## tests of a result -/

/-- the computation succeeds, and its result passes the test -/
def yields (x : Except ε β) (p : β → Bool) : Bool :=
  match x with
  | .ok y => p y
  | .error _ => false

theorem exists_of_yields {x : Except ε β} {p : β → Bool} (h : yields x p = true) :
    ∃ y, x = .ok y ∧ p y = true := by
  unfold yields at h
  split at h
  · exact ⟨_, rfl, h⟩
  · cases h

/-- the computation stops with the given fault -/
def stopsWith [DecidableEq ε] (x : Except ε β) (fault : ε) : Bool :=
  match x with
  | .ok _ => false
  | .error cause => decide (cause = fault)

theorem eq_of_stopsWith [DecidableEq ε] {x : Except ε β} {fault : ε}
    (h : stopsWith x fault = true) : x = .error fault := by
  unfold stopsWith at h
  split at h
  · cases h
  · rw [of_decide_eq_true h]

/-! ## folds -/

theorem foldlM_record_from {P : List β → σ → Prop} {f : σ → β → Except ε σ} (xs : List β) :
    ∀ (done : List β) (s last : σ),
      (∀ pre x post s next, done ++ xs = pre ++ x :: post → P pre s → f s x = .ok next →
        P (pre ++ [x]) next) →
      P done s → xs.foldlM f s = .ok last → P (done ++ xs) last := by
  induction xs with
  | nil =>
    intro done s last _ start h
    rw [List.foldlM_nil, pure_eq_ok_iff] at h
    rw [List.append_nil, ← h]
    exact start
  | cons x xs ih =>
    intro done s last keep start h
    rw [List.foldlM_cons, bind_eq_ok_iff] at h
    obtain ⟨next, hstep, hrest⟩ := h
    have e : done ++ x :: xs = (done ++ [x]) ++ xs := by simp
    rw [e]
    rw [e] at keep
    exact ih (done ++ [x]) next last keep (keep done x xs s next (by simp) start hstep) hrest

/-- what every step of a fold keeps, told of the members read so far, holds at its end -/
theorem foldlM_record {P : List β → σ → Prop} {f : σ → β → Except ε σ} {xs : List β} {s last : σ}
    (keep : ∀ pre x post s next, xs = pre ++ x :: post → P pre s → f s x = .ok next →
      P (pre ++ [x]) next)
    (start : P [] s) (h : xs.foldlM f s = .ok last) : P xs last :=
  foldlM_record_from xs [] s last keep start h

theorem foldlM_stopped_from {P : List β → σ → Prop} {f : σ → β → Except ε σ} {stopped : ε}
    (xs : List β) :
    ∀ (done : List β) (s : σ),
      (∀ pre x post s next, done ++ xs = pre ++ x :: post → P pre s → f s x = .ok next →
        P (pre ++ [x]) next) →
      P done s → xs.foldlM f s = .error stopped →
      ∃ pre x post s', done ++ xs = pre ++ x :: post ∧ P pre s' ∧ f s' x = .error stopped := by
  induction xs with
  | nil =>
    intro done s _ _ h
    cases h
  | cons x xs ih =>
    intro done s keep start h
    rw [List.foldlM_cons, bind_eq_error_iff] at h
    rcases h with h | ⟨next, hstep, hrest⟩
    · exact ⟨done, x, xs, s, rfl, start, h⟩
    · have e : done ++ x :: xs = (done ++ [x]) ++ xs := by simp
      have hnext := keep done x xs s next rfl start hstep
      rw [e] at keep ⊢
      exact ih (done ++ [x]) next keep hnext hrest

theorem foldlM_stopped {P : List β → σ → Prop} {f : σ → β → Except ε σ} {xs : List β} {s : σ}
    {stopped : ε}
    (keep : ∀ pre x post s next, xs = pre ++ x :: post → P pre s → f s x = .ok next →
      P (pre ++ [x]) next)
    (start : P [] s) (h : xs.foldlM f s = .error stopped) :
    ∃ pre x post s', xs = pre ++ x :: post ∧ P pre s' ∧ f s' x = .error stopped :=
  foldlM_stopped_from xs [] s keep start h

theorem foldlM_total_from {P : List β → σ → Prop} {f : σ → β → Except ε σ} (xs : List β) :
    ∀ (done : List β) (s : σ),
      (∀ pre x post s, done ++ xs = pre ++ x :: post → P pre s →
        ∃ next, f s x = .ok next ∧ P (pre ++ [x]) next) →
      P done s → ∃ last, xs.foldlM f s = .ok last ∧ P (done ++ xs) last := by
  induction xs with
  | nil =>
    intro done s _ start
    exact ⟨s, rfl, by rwa [List.append_nil]⟩
  | cons x xs ih =>
    intro done s keep start
    obtain ⟨next, hstep, hnext⟩ := keep done x xs s rfl start
    have e : done ++ x :: xs = (done ++ [x]) ++ xs := by simp
    rw [e] at keep
    obtain ⟨last, hrest, hlast⟩ := ih (done ++ [x]) next keep hnext
    refine ⟨last, ?_, by rwa [e]⟩
    rw [List.foldlM_cons, bind_eq_ok_iff]
    exact ⟨next, hstep, hrest⟩

/-- a fold succeeds when each of its steps does on what the steps before it left -/
theorem foldlM_total {P : List β → σ → Prop} {f : σ → β → Except ε σ} {xs : List β} {s : σ}
    (keep : ∀ pre x post s, xs = pre ++ x :: post → P pre s →
      ∃ next, f s x = .ok next ∧ P (pre ++ [x]) next)
    (start : P [] s) : ∃ last, xs.foldlM f s = .ok last ∧ P xs last :=
  foldlM_total_from xs [] s keep start

/-- a fold whose steps keep an invariant or stop with a fault of some kind does so as a whole -/
theorem foldlM_cases {P : σ → Prop} {Q : ε → Prop} {f : σ → β → Except ε σ} {xs : List β}
    (step : ∀ s x, x ∈ xs → P s →
      (∃ next, f s x = .ok next ∧ P next) ∨ ∃ cause, f s x = .error cause ∧ Q cause)
    {s : σ} (start : P s) :
    (∃ last, xs.foldlM f s = .ok last ∧ P last) ∨ ∃ cause, xs.foldlM f s = .error cause ∧ Q cause := by
  induction xs generalizing s with
  | nil => exact .inl ⟨s, rfl, start⟩
  | cons x xs ih =>
    rcases step s x List.mem_cons_self start with ⟨next, hstep, hnext⟩ | ⟨cause, hstep, hcause⟩
    · rcases ih (fun s y hy => step s y (List.mem_cons_of_mem _ hy)) hnext with
        ⟨last, hrest, hlast⟩ | ⟨cause, hrest, hcause⟩
      · exact .inl ⟨last, bind_eq_ok_iff.mpr ⟨next, hstep, hrest⟩, hlast⟩
      · exact .inr ⟨cause, bind_eq_error_iff.mpr (.inr ⟨next, hstep, hrest⟩), hcause⟩
    · exact .inr ⟨cause, bind_eq_error_iff.mpr (.inl hstep), hcause⟩

/-- two folds whose steps agree on the members of a list -/
theorem foldlM_congr {f g : σ → β → Except ε σ} {xs : List β} (h : ∀ s, ∀ x ∈ xs, f s x = g s x)
    (s : σ) : xs.foldlM f s = xs.foldlM g s := by
  induction xs generalizing s with
  | nil => rfl
  | cons x xs ih =>
    rw [List.foldlM_cons, List.foldlM_cons, h s x List.mem_cons_self]
    exact congrArg _ (funext fun next => ih (fun s y hy => h s y (List.mem_cons_of_mem _ hy)) next)

theorem foldlM_flatMap {δ : Type} {f : σ → γ → Except ε σ} {g : δ → List γ} {xs : List δ} (s : σ) :
    (xs.flatMap g).foldlM f s = xs.foldlM (fun s x => (g x).foldlM f s) s := by
  induction xs generalizing s with
  | nil => rfl
  | cons x xs ih =>
    rw [List.flatMap_cons, List.foldlM_append, List.foldlM_cons]
    exact congrArg _ (funext ih)

/-! ## lists computed member by member -/

theorem mapM_eq_ok_iff {f : β → Except ε γ} {xs : List β} {ys : List γ} :
    xs.mapM f = .ok ys ↔ List.Forall₂ (fun x y => f x = .ok y) xs ys := by
  induction xs generalizing ys with
  | nil =>
    rw [List.mapM_nil, pure_eq_ok_iff]
    cases ys <;> simp
  | cons x xs ih =>
    rw [List.mapM_cons, bind_eq_ok_iff]
    refine ⟨?_, ?_⟩
    · intro hx
      obtain ⟨y, hy, h⟩ := hx
      obtain ⟨rest, hrest, h⟩ := bind_eq_ok_iff.mp h
      rw [pure_eq_ok_iff] at h
      rw [← h]
      exact .cons hy (ih.mp hrest)
    · intro h
      cases h with
      | cons hy hrest => exact ⟨_, hy, bind_eq_ok_iff.mpr ⟨_, ih.mpr hrest, rfl⟩⟩

theorem mapM_spec {P : β → γ → Prop} {f : β → Except ε γ} {xs : List β}
    (h : ∀ x ∈ xs, ∃ y, f x = .ok y ∧ P x y) : ∃ ys, xs.mapM f = .ok ys ∧ List.Forall₂ P xs ys := by
  induction xs with
  | nil => exact ⟨[], rfl, .nil⟩
  | cons x xs ih =>
    obtain ⟨y, hy, hxy⟩ := h x List.mem_cons_self
    obtain ⟨ys, hys, hall⟩ := ih fun x' hx' => h x' (List.mem_cons_of_mem _ hx')
    refine ⟨y :: ys, ?_, .cons hxy hall⟩
    rw [List.mapM_cons, hy, hys]
    rfl

theorem mapM_total {f : β → Except ε γ} {xs : List β} (h : ∀ x ∈ xs, ∃ y, f x = .ok y) :
    ∃ ys, xs.mapM f = .ok ys := by
  obtain ⟨ys, hys, _⟩ := mapM_spec (P := fun _ _ => True) fun x hx =>
    (h x hx).imp fun _ hy => ⟨hy, trivial⟩
  exact ⟨ys, hys⟩

/-- two computations one after the other -/
theorem mapM_mapM_spec {δ : Type} {P : β → δ → Prop} {f : β → Except ε γ} {g : γ → Except ε δ}
    {xs : List β} (h : ∀ x ∈ xs, ∃ y z, f x = .ok y ∧ g y = .ok z ∧ P x z) :
    ∃ zs, (xs.mapM f >>= fun ys => ys.mapM g) = .ok zs ∧ List.Forall₂ P xs zs := by
  induction xs with
  | nil => exact ⟨[], rfl, .nil⟩
  | cons x xs ih =>
    obtain ⟨y, z, hy, hz, hxz⟩ := h x List.mem_cons_self
    obtain ⟨zs, hzs, hall⟩ := ih fun x' hx' => h x' (List.mem_cons_of_mem _ hx')
    obtain ⟨ys, hys, hzs⟩ := bind_eq_ok_iff.mp hzs
    refine ⟨z :: zs, bind_eq_ok_iff.mpr ⟨y :: ys, ?_, ?_⟩, .cons hxz hall⟩
    · rw [List.mapM_cons, hy, hys]
      rfl
    · rw [List.mapM_cons, hz, hzs]
      rfl

theorem mapM_eq_ok_map {f : β → Except ε γ} {g : β → γ} {xs : List β}
    (h : ∀ x ∈ xs, f x = .ok (g x)) : xs.mapM f = .ok (xs.map g) := by
  rw [mapM_eq_ok_iff, List.forall₂_map_right_iff, List.forall₂_same]
  exact h

/-- the first member that has no image stops the computation -/
theorem mapM_stopped_first {f : β → Except ε γ} {xs : List β} {cause : ε}
    (h : xs.mapM f = .error cause) : ∃ pre x post, xs = pre ++ x :: post ∧
      (∀ y ∈ pre, ∃ z, f y = .ok z) ∧ f x = .error cause := by
  induction xs with
  | nil => cases h
  | cons x xs ih =>
    rw [List.mapM_cons, bind_eq_error_iff] at h
    rcases h with h | ⟨y, hy, h⟩
    · exact ⟨[], x, xs, rfl, by simp, h⟩
    · rcases bind_eq_error_iff.mp h with h | ⟨ys, _, h⟩
      · obtain ⟨pre, x', post, rfl, hpre, hx'⟩ := ih h
        exact ⟨x :: pre, x', post, rfl, List.forall_mem_cons.mpr ⟨⟨y, hy⟩, hpre⟩, hx'⟩
      · cases h

theorem mapM_stopped {f : β → Except ε γ} {xs : List β} {cause : ε}
    (h : xs.mapM f = .error cause) : ∃ x ∈ xs, f x = .error cause := by
  obtain ⟨pre, x, post, rfl, _, hx⟩ := mapM_stopped_first h
  exact ⟨x, by simp, hx⟩

theorem exists_of_forall₂ {P : β → γ → Prop} {xs : List β} {ys : List γ} (h : List.Forall₂ P xs ys)
    {i : Nat} {x : β} (hx : xs[i]? = some x) : ∃ y, ys[i]? = some y ∧ P x y := by
  obtain ⟨hlen, hget⟩ := List.forall₂_iff_get.mp h
  obtain ⟨hi, rfl⟩ := List.getElem?_eq_some_iff.mp hx
  exact ⟨ys[i], List.getElem?_eq_getElem _, hget i hi (hlen ▸ hi)⟩

theorem mem_mapM_iff {f : β → Except ε γ} {xs : List β} {ys : List γ} (h : xs.mapM f = .ok ys)
    {y : γ} : y ∈ ys ↔ ∃ x ∈ xs, f x = .ok y := by
  rw [mapM_eq_ok_iff] at h
  induction h with
  | nil => simp
  | @cons x y' xs ys hx _ ih =>
    rw [List.mem_cons, ih]
    refine ⟨?_, ?_⟩
    · rintro (rfl | ⟨x', hx', hy⟩)
      · exact ⟨x, List.mem_cons_self, hx⟩
      · exact ⟨x', List.mem_cons_of_mem _ hx', hy⟩
    · intro ⟨x', hx', hy⟩
      rcases List.mem_cons.mp hx' with rfl | hx'
      · exact .inl (Except.ok.inj (hy.symm.trans hx))
      · exact .inr ⟨x', hx', hy⟩

theorem filterAuxM_eq_ok {p : β → Except ε Bool} (xs : List β) :
    ∀ (acc ys : List β), xs.filterAuxM p acc = .ok ys → ∃ chosen : List β,
      ys = chosen.reverse ++ acc ∧ chosen.Sublist xs ∧
        ∀ x, x ∈ chosen ↔ x ∈ xs ∧ p x = .ok true := by
  induction xs with
  | nil =>
    intro acc ys h
    rw [List.filterAuxM, pure_eq_ok_iff] at h
    exact ⟨[], by simp [h], .slnil, by simp⟩
  | cons x xs ih =>
    intro acc ys h
    rw [List.filterAuxM, bind_eq_ok_iff] at h
    obtain ⟨b, hb, h⟩ := h
    obtain ⟨chosen, rfl, hsub, hmem⟩ := ih _ ys h
    cases b with
    | false =>
      refine ⟨chosen, rfl, hsub.cons x, fun y => ?_⟩
      rw [hmem, List.mem_cons]
      refine ⟨?_, ?_⟩
      · exact fun ⟨hy, hp⟩ => ⟨.inr hy, hp⟩
      · rintro ⟨rfl | hy, hp⟩
        · rw [hb] at hp
          cases hp
        · exact ⟨hy, hp⟩
    | true =>
      refine ⟨x :: chosen, by simp, hsub.cons_cons x, fun y => ?_⟩
      rw [List.mem_cons, List.mem_cons, hmem]
      refine ⟨?_, ?_⟩
      · intro hcase
        rcases hcase with rfl | ⟨hy, hp⟩
        · exact ⟨.inl rfl, hb⟩
        · exact ⟨.inr hy, hp⟩
      · rintro ⟨rfl | hy, hp⟩
        · exact .inl rfl
        · exact .inr ⟨hy, hp⟩

/-- the members that pass a test, in their order -/
theorem filterM_eq_ok {p : β → Except ε Bool} {xs ys : List β} (h : xs.filterM p = .ok ys) :
    ys.Sublist xs ∧ ∀ x, x ∈ ys ↔ x ∈ xs ∧ p x = .ok true := by
  rw [List.filterM, bind_eq_ok_iff] at h
  obtain ⟨zs, hzs, h⟩ := h
  rw [pure_eq_ok_iff] at h
  obtain ⟨chosen, rfl, hsub, hmem⟩ := filterAuxM_eq_ok xs [] zs hzs
  rw [← h, List.append_nil, List.reverse_reverse]
  exact ⟨hsub, hmem⟩

theorem filterAuxM_total {p : β → Except ε Bool} (xs : List β) (h : ∀ x ∈ xs, ∃ b, p x = .ok b) :
    ∀ acc : List β, ∃ ys, xs.filterAuxM p acc = .ok ys := by
  induction xs with
  | nil => exact fun acc => ⟨acc, rfl⟩
  | cons x xs ih =>
    intro acc
    obtain ⟨b, hb⟩ := h x List.mem_cons_self
    obtain ⟨ys, hys⟩ := ih (fun y hy => h y (List.mem_cons_of_mem _ hy)) (cond b (x :: acc) acc)
    refine ⟨ys, ?_⟩
    rw [List.filterAuxM, hb]
    exact hys

theorem filterM_total {p : β → Except ε Bool} {xs : List β} (h : ∀ x ∈ xs, ∃ b, p x = .ok b) :
    ∃ ys, xs.filterM p = .ok ys := by
  obtain ⟨ys, hys⟩ := filterAuxM_total xs h []
  refine ⟨ys.reverse, ?_⟩
  rw [List.filterM, hys]
  rfl

/-! ## loops -/

/-- a loop that starts below its bound in a rank, which every step lowers, ends where it is done -/
theorem repeatWhile_spec {step : σ → Except Fault (Option σ)} {P : Nat → σ → Prop}
    {Done : σ → Prop}
    (progress : ∀ n s, P n s → (Done s ∧ step s = .ok none) ∨
      ∃ next k, step s = .ok (some next) ∧ k < n ∧ P k next)
    {n bound : Nat} {s : σ} (start : P n s) (below : n < bound) :
    ∃ last k, repeatWhile step bound s = .ok last ∧ P k last ∧ Done last := by
  induction bound generalizing n s with
  | zero => omega
  | succ bound ih =>
    rcases progress n s start with ⟨hdone, hstep⟩ | ⟨next, k, hnext, hlt, hk⟩
    · exact ⟨s, n, repeatWhile_of_done hstep, start, hdone⟩
    · rw [repeatWhile_of_step hnext]
      exact ih hk (by omega)

/-- steps of a loop lead from `s` to a state; `note` tells of each step what is recorded, and the
latest stands first -/
inductive Recorded (step : σ → Except Fault (Option σ)) (note : σ → List β) (s : σ) :
    List β → σ → Prop
  | start : Recorded step note s [] s
  | next {record : List β} {t u : σ} : Recorded step note s record t → step t = .ok (some u) →
      Recorded step note s (note t ++ record) u

/-- the state in which a loop ends is one that its steps lead to -/
theorem Recorded.repeatWhile (note : σ → List β) {s t last : σ} {record : List β} {bound : Nat}
    (h : Recorded step note s record t) (hrun : repeatWhile step bound t = .ok last) :
    ∃ record, Recorded step note s record last := by
  have keep : ∀ t next, (∃ record, Recorded step note s record t) → step t = .ok (some next) →
      ∃ record, Recorded step note s record next := by
    intro t next ⟨record, ht⟩ hstep
    exact ⟨note t ++ record, ht.next hstep⟩
  exact (repeatWhile_invariant keep ⟨record, h⟩ hrun).1

/-! ## sets and tables -/

/-- the members of a set of numbers are listed once each -/
theorem nodup_toList (xs : ExtTreeSet Nat) : xs.toList.Nodup :=
  xs.distinct_toList.imp fun h heq => h (Nat.compare_eq_eq.mpr heq)

/-- a set without one of its members is smaller by one -/
theorem size_erase_add_one {cmp : β → β → Ordering} [TransCmp cmp] {xs : ExtTreeSet β cmp} {x : β}
    (hx : x ∈ xs) : (xs.erase x).size + 1 = xs.size := by
  rw [ExtTreeSet.size_erase, if_pos (ExtTreeSet.contains_iff_mem.mpr hx)]
  apply Nat.sub_add_cancel
  rw [Nat.one_le_iff_ne_zero, ne_eq, ← ExtTreeSet.eq_empty_iff_size_eq_zero]
  intro hempty
  rw [hempty] at hx
  exact ExtTreeSet.not_mem_empty hx

/-- the entries of a table made from a list without repeated keys -/
theorem getElem?_ofList_iff {κ : Type} {cmp : κ → κ → Ordering} [TransCmp cmp] [LawfulEqCmp cmp]
    {xs : List (κ × β)} (distinct : (xs.map Prod.fst).Nodup) {k : κ} {y : β} :
    (ExtTreeMap.ofList xs cmp)[k]? = some y ↔ (k, y) ∈ xs := by
  classical
  have hapart : xs.Pairwise fun p q => ¬ cmp p.1 q.1 = .eq :=
    (List.pairwise_map.mp distinct).imp fun hne heq => hne (LawfulEqCmp.eq_of_compare heq)
  have hget : ∀ {y}, (k, y) ∈ xs → (ExtTreeMap.ofList xs cmp)[k]? = some y := fun hmem =>
    ExtTreeMap.getElem?_ofList_of_mem ReflCmp.compare_self hapart hmem
  refine ⟨fun hk => ?_, hget⟩
  have hmem : k ∈ ExtTreeMap.ofList xs cmp := by
    rw [ExtTreeMap.mem_iff_isSome_getElem?, hk]
    rfl
  rw [ExtTreeMap.mem_ofList, List.contains_iff_mem, List.mem_map] at hmem
  obtain ⟨⟨k', y'⟩, hy', rfl⟩ := hmem
  rw [hget hy'] at hk
  exact Option.some.inj hk ▸ hy'

/-- the members of a set made from a list -/
theorem mem_ofList_iff {cmp : β → β → Ordering} [TransCmp cmp] [LawfulEqCmp cmp] {xs : List β}
    {x : β} : x ∈ ExtTreeSet.ofList xs cmp ↔ x ∈ xs := by
  classical
  rw [ExtTreeSet.mem_ofList, List.contains_iff_mem]

/-! ## first occurrences -/

section
variable [BEq β] [LawfulBEq β] {xs : List β} {x : β}

theorem eraseDups_eq_self (h : xs.Nodup) : xs.eraseDups = xs := by
  induction xs with
  | nil => rfl
  | cons x xs ih =>
    obtain ⟨hx, hxs⟩ := List.nodup_cons.mp h
    have hne : ∀ y ∈ xs, (!y == x) = true := by
      intro y hy
      simpa using fun e : y = x => hx (e ▸ hy)
    rw [List.eraseDups_cons, List.filter_eq_self.mpr hne, ih hxs]

theorem eraseDups_concat_of_mem (h : x ∈ xs) : (xs ++ [x]).eraseDups = xs.eraseDups := by
  have hnone : [x].removeAll xs = [] := by simp [List.removeAll, h]
  rw [List.eraseDups_append, hnone, List.eraseDups_nil, List.append_nil]

theorem eraseDups_concat_of_not_mem (h : x ∉ xs) :
    (xs ++ [x]).eraseDups = xs.eraseDups ++ [x] := by
  have hall : [x].removeAll xs = [x] := by simp [List.removeAll, h]
  have hself : [x].eraseDups = [x] := eraseDups_eq_self (by simp)
  rw [List.eraseDups_append, hall, hself]

end

end DiskCut
