import Mathlib

/-!
# Rewriting to a fixed point

A pattern is applied anywhere, in any order, until it applies nowhere.

* **`keeps_of_step`**: what every step keeps, every run keeps;
* **`exists_rewritesTo`**: where every step makes a measure smaller, each start has a fixed point;
* **`mem_of_rewritesTo`**: what is left over are the pieces that cannot be cut.
-/

namespace MlirAie.Lib

section Runs

variable {α : Type*} {r : α → α → Prop} {x y : α}

/-- No step leads on. -/
def Normal (r : α → α → Prop) (x : α) : Prop := ∀ y, ¬ r x y

/-- A run of steps that ends where no step leads on. -/
def RewritesTo (r : α → α → Prop) (x y : α) : Prop := Relation.ReflTransGen r x y ∧ Normal r y

/-- **What every step keeps, every run keeps.** -/
theorem keeps_of_step {P : α → Prop} (hstep : ∀ x y, r x y → P x → P y)
    (hrun : Relation.ReflTransGen r x y) (hx : P x) : P y := by
  induction hrun with
  | refl => exact hx
  | tail _ hlast ih => exact hstep _ _ hlast ih

theorem le_of_step {f : α → ℕ} (hstep : ∀ x y, r x y → f y ≤ f x)
    (hrun : Relation.ReflTransGen r x y) : f y ≤ f x := by
  induction hrun with
  | refl => exact le_rfl
  | tail _ hlast ih => exact (hstep _ _ hlast).trans ih

/-- **A fixed point is reached** where every step makes a measure smaller. -/
theorem exists_rewritesTo (measure : α → ℕ) (hstep : ∀ x y, r x y → measure y < measure x)
    (x : α) : ∃ y, RewritesTo r x y := by
  induction hn : measure x using Nat.strong_induction_on generalizing x with
  | h n ih =>
    by_cases hx : Normal r x
    · exact ⟨x, .refl, hx⟩
    · rw [Normal] at hx
      push Not at hx
      obtain ⟨y, hxy⟩ := hx
      obtain ⟨z, hyz, hz⟩ := ih (measure y) (hn ▸ hstep x y hxy) y rfl
      exact ⟨z, .head hxy hyz, hz⟩

section Image

variable {β : Type*} {r' : β → β → Prop} {f : α → β} {P : α → Prop}

/-- The image of a run is a run. -/
theorem run_map (hstep : ∀ x y, P x → r x y → P y ∧ r' (f x) (f y)) (hx : P x)
    (h : Relation.ReflTransGen r x y) : P y ∧ Relation.ReflTransGen r' (f x) (f y) := by
  induction h with
  | refl => exact ⟨hx, .refl⟩
  | tail _ hlast ih =>
    obtain ⟨hy, hmap⟩ := hstep _ _ ih.1 hlast
    exact ⟨hy, ih.2.tail hmap⟩

theorem exists_run_of_map (hstep : ∀ x y, P x → r x y → P y ∧ r' (f x) (f y))
    (hback : ∀ x z, P x → r' (f x) z → ∃ y, r x y ∧ f y = z) (hx : P x) {z : β}
    (h : Relation.ReflTransGen r' (f x) z) :
    ∃ y, Relation.ReflTransGen r x y ∧ P y ∧ f y = z := by
  induction h with
  | refl => exact ⟨x, .refl, hx, rfl⟩
  | tail _ hlast ih =>
    obtain ⟨y, hrun, hy, rfl⟩ := ih
    obtain ⟨w, hyw, rfl⟩ := hback y _ hy hlast
    exact ⟨w, hrun.tail hyw, (hstep y w hy hyw).1, rfl⟩

/-- A fixed point's image is one. -/
theorem normal_map (hback : ∀ x z, P x → r' (f x) z → ∃ y, r x y ∧ f y = z) (hx : P x)
    (h : Normal r x) : Normal r' (f x) := by
  intro z hz
  obtain ⟨y, hxy, _⟩ := hback x z hx hz
  exact h y hxy

theorem normal_of_map (hstep : ∀ x y, P x → r x y → P y ∧ r' (f x) (f y)) (hx : P x)
    (h : Normal r' (f x)) : Normal r x :=
  fun y hxy => h (f y) (hstep x y hx hxy).2

end Image

end Runs

/-! ## Cutting things in two -/

section Pieces

variable {α : Type*} {cut : α → Option (α × α)} {xs ys : List α}

/-- A thing of the list is cut, and its parts take its place. -/
inductive CutStep (cut : α → Option (α × α)) : List α → List α → Prop
  | mk (before after : List α) {x l r : α} (h : cut x = some (l, r)) :
      CutStep cut (before ++ x :: after) (before ++ l :: r :: after)

/-- What a thing comes apart into: itself, and the pieces of its parts. -/
inductive Piece (cut : α → Option (α × α)) : α → α → Prop
  | refl (x : α) : Piece cut x x
  | left {x l r p : α} (h : cut x = some (l, r)) (hp : Piece cut l p) : Piece cut x p
  | right {x l r p : α} (h : cut x = some (l, r)) (hp : Piece cut r p) : Piece cut x p

def Leftover (cut : α → Option (α × α)) (x p : α) : Prop := Piece cut x p ∧ cut p = none

theorem leftover_of_none {x p : α} (h : cut x = none) : Leftover cut x p ↔ p = x := by
  constructor
  · rintro ⟨hp, -⟩
    cases hp with
    | refl => rfl
    | left h' => cases h.symm.trans h'
    | right h' => cases h.symm.trans h'
  · rintro rfl
    exact ⟨.refl p, h⟩

theorem leftover_of_some {x l r p : α} (h : cut x = some (l, r)) :
    Leftover cut x p ↔ Leftover cut l p ∨ Leftover cut r p := by
  constructor
  · rintro ⟨hp, hnone⟩
    cases hp with
    | refl => cases hnone.symm.trans h
    | left h' hp =>
      cases h.symm.trans h'
      exact .inl ⟨hp, hnone⟩
    | right h' hp =>
      cases h.symm.trans h'
      exact .inr ⟨hp, hnone⟩
  · rintro (⟨hp, hnone⟩ | ⟨hp, hnone⟩)
    · exact ⟨.left h hp, hnone⟩
    · exact ⟨.right h hp, hnone⟩

theorem leftover_cutStep (h : CutStep cut xs ys) {p : α} :
    (∃ y ∈ ys, Leftover cut y p) ↔ ∃ x ∈ xs, Leftover cut x p := by
  obtain ⟨before, after, hcut⟩ := h
  simp only [List.mem_append, List.mem_cons, or_and_right, exists_or, exists_eq_left,
    leftover_of_some hcut, or_assoc]

theorem leftover_run (h : Relation.ReflTransGen (CutStep cut) xs ys) {p : α} :
    (∃ y ∈ ys, Leftover cut y p) ↔ ∃ x ∈ xs, Leftover cut x p := by
  induction h with
  | refl => rfl
  | tail _ hlast ih => exact (leftover_cutStep hlast).trans ih

/-- **What is left over**: the pieces that cannot be cut. -/
theorem mem_of_rewritesTo (h : Relation.ReflTransGen (CutStep cut) xs ys)
    (hnone : ∀ y ∈ ys, cut y = none) {p : α} : p ∈ ys ↔ ∃ x ∈ xs, Leftover cut x p := by
  rw [← leftover_run h]
  constructor
  · intro hp
    exact ⟨p, hp, .refl p, hnone p hp⟩
  · rintro ⟨y, hy, hleftover⟩
    rw [(leftover_of_none (hnone y hy)).1 hleftover]
    exact hy

/-- **What every piece that is left over satisfies**, all that is left over does. -/
theorem forall_of_rewritesTo {P : α → Prop} (h : Relation.ReflTransGen (CutStep cut) xs ys)
    (hnone : ∀ y ∈ ys, cut y = none) :
    (∀ y ∈ ys, P y) ↔ ∀ x ∈ xs, ∀ p, Piece cut x p → cut p = none → P p := by
  constructor
  · intro hys x hx p hp hcut
    exact hys p ((mem_of_rewritesTo h hnone).2 ⟨x, hx, hp, hcut⟩)
  · intro hxs y hy
    obtain ⟨x, hx, hp, hcut⟩ := (mem_of_rewritesTo h hnone).1 hy
    exact hxs x hx y hp hcut

theorem sum_lt_of_cutStep {size : α → ℕ}
    (hsize : ∀ x l r, cut x = some (l, r) → size l + size r < size x) (h : CutStep cut xs ys) :
    (ys.map size).sum < (xs.map size).sum := by
  obtain ⟨before, after, hcut⟩ := h
  have hlt := hsize _ _ _ hcut
  simp only [List.map_append, List.map_cons, List.sum_append, List.sum_cons]
  omega

theorem Piece.keeps {P : α → Prop} {x p : α} (h : Piece cut x p)
    (hcut : ∀ x l r, cut x = some (l, r) → P x → P l ∧ P r) (hx : P x) : P p := by
  induction h with
  | refl => exact hx
  | left h _ ih => exact ih (hcut _ _ _ h hx).1
  | right h _ ih => exact ih (hcut _ _ _ h hx).2

end Pieces

end MlirAie.Lib
