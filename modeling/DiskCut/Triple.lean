/-!
# Cyclic triples

The corners of a triangle and its edges come in threes, read in a cycle: side `k` runs from
corner `k` to corner `k + 1`, and after the third corner the first one follows.
-/

namespace DiskCut

/-- three values in cyclic order -/
@[ext] structure Triple (β : Type) where
  a : β
  b : β
  c : β
deriving DecidableEq, Repr

namespace Triple
variable {β γ : Type}

def get (t : Triple β) : Fin 3 → β
  | 0 => t.a
  | 1 => t.b
  | 2 => t.c

def set (t : Triple β) (k : Fin 3) (x : β) : Triple β :=
  match k with
  | 0 => { t with a := x }
  | 1 => { t with b := x }
  | 2 => { t with c := x }

def map (f : β → γ) (t : Triple β) : Triple γ := ⟨f t.a, f t.b, f t.c⟩

def toList (t : Triple β) : List β := [t.a, t.b, t.c]

/-- the sides: side `k` joins member `k` to member `k + 1` -/
def sides (t : Triple β) : Triple (β × β) := ⟨(t.a, t.b), (t.b, t.c), (t.c, t.a)⟩

/-- no member occurs twice -/
def Distinct (t : Triple β) : Prop := t.a ≠ t.b ∧ t.b ≠ t.c ∧ t.a ≠ t.c

instance [DecidableEq β] (t : Triple β) : Decidable t.Distinct :=
  inferInstanceAs (Decidable (_ ∧ _ ∧ _))

/-- the entry at the place before `k`, counted around -/
def getBefore (t : Triple β) (k : Fin 3) : β := t.get (k + 2)

/-- the first place where `x` stands -/
def place? [DecidableEq β] (t : Triple β) (x : β) : Option (Fin 3) :=
  if t.a = x then some 0 else if t.b = x then some 1 else if t.c = x then some 2 else none

/-! ## places and members -/

theorem get_set (t : Triple β) (j k : Fin 3) (x : β) :
    (t.set k x).get j = if j = k then x else t.get j := by
  match j, k with
  | 0, 0 | 0, 1 | 0, 2 | 1, 0 | 1, 1 | 1, 2 | 2, 0 | 2, 1 | 2, 2 => rfl

theorem get_map (f : β → γ) (t : Triple β) (k : Fin 3) : (t.map f).get k = f (t.get k) := by
  match k with
  | 0 | 1 | 2 => rfl

theorem get_sides (t : Triple β) (k : Fin 3) : t.sides.get k = (t.get k, t.get (k + 1)) := by
  match k with
  | 0 | 1 | 2 => rfl

theorem mem_toList {t : Triple β} {x : β} : x ∈ t.toList ↔ ∃ k, t.get k = x := by
  constructor
  · intro h
    simp only [toList, List.mem_cons, List.not_mem_nil, or_false] at h
    rcases h with rfl | rfl | rfl
    · exact ⟨0, rfl⟩
    · exact ⟨1, rfl⟩
    · exact ⟨2, rfl⟩
  · rintro ⟨k, rfl⟩
    match k with
    | 0 | 1 | 2 => simp [toList, get]

theorem get_of_place? [DecidableEq β] {t : Triple β} {x : β} {k : Fin 3}
    (h : t.place? x = some k) : t.get k = x := by
  grind [place?, get]

theorem place?_eq_none_iff [DecidableEq β] {t : Triple β} {x : β} :
    t.place? x = none ↔ x ∉ t.toList := by
  grind [place?, toList]

end Triple
end DiskCut
