import Mathlib

/-!
# The first unused candidate

Candidates `c 0, c 1, …` are tried in order until one is not in the list `used`.

* `firstFresh_not_mem`: with distinct candidates the search ends at an unused one;
* `firstFresh_least`: the candidates before it are used;
* `firstFresh_eq_zero`: an unused first candidate is taken.
-/

namespace MlirAie.Lib

variable {α : Type} [DecidableEq α]

/-- The first candidate from `i` on that is not used, among the next `n + 1`. -/
@[grind =] def freshFrom (c : ℕ → α) (used : List α) : ℕ → ℕ → α
  | 0, i => c i
  | n + 1, i => if c i ∈ used then freshFrom c used n (i + 1) else c i

def firstFresh (c : ℕ → α) (used : List α) : α := freshFrom c used used.length 0

variable {c : ℕ → α} {used : List α}

theorem freshFrom_not_mem {n i : ℕ} (h : ∃ k, k ≤ n ∧ c (i + k) ∉ used) :
    freshFrom c used n i ∉ used := by
  induction n generalizing i with
  | zero =>
    obtain ⟨k, hk, h⟩ := h
    obtain rfl : k = 0 := by omega
    exact h
  | succ n ih =>
    rw [freshFrom]
    by_cases hi : c i ∈ used
    · rw [if_pos hi]
      obtain ⟨k, hk, h⟩ := h
      cases k with
      | zero => exact absurd hi h
      | succ k =>
        refine ih ⟨k, by omega, ?_⟩
        rwa [show i + 1 + k = i + (k + 1) by omega]
    · rwa [if_neg hi]

theorem freshFrom_exists (n i : ℕ) : ∃ k, i ≤ k ∧ freshFrom c used n i = c k := by
  induction n generalizing i with
  | zero => exact ⟨i, le_rfl, rfl⟩
  | succ n ih =>
    rw [freshFrom]
    by_cases hi : c i ∈ used
    · rw [if_pos hi]
      obtain ⟨k, hk, h⟩ := ih (i + 1)
      exact ⟨k, by omega, h⟩
    · exact ⟨i, le_rfl, if_neg hi⟩

/-- **Distinct candidates**: one more than there are used values suffice. -/
theorem firstFresh_not_mem (hc : Function.Injective c) : firstFresh c used ∉ used := by
  apply freshFrom_not_mem
  by_contra h
  push Not at h
  have hsub : (Finset.range (used.length + 1)).image c ⊆ used.toFinset := by
    intro a ha
    obtain ⟨k, hk, rfl⟩ := Finset.mem_image.1 ha
    rw [List.mem_toFinset, ← Nat.zero_add k]
    exact h k (Nat.lt_succ_iff.1 (Finset.mem_range.1 hk))
  have hcard := Finset.card_le_card hsub
  rw [Finset.card_image_of_injective _ hc, Finset.card_range] at hcard
  have := used.toFinset_card_le
  omega

theorem firstFresh_exists (c : ℕ → α) (used : List α) : ∃ k, firstFresh c used = c k :=
  let ⟨k, _, h⟩ := freshFrom_exists used.length 0
  ⟨k, h⟩

theorem freshFrom_least (c : ℕ → α) (used : List α) (n i : ℕ) :
    ∃ k, i ≤ k ∧ freshFrom c used n i = c k ∧ ∀ j, i ≤ j → j < k → c j ∈ used := by
  induction n generalizing i with
  | zero => exact ⟨i, le_rfl, rfl, fun j hij hji => absurd hij (by omega)⟩
  | succ n ih =>
    rw [freshFrom]
    by_cases hi : c i ∈ used
    · rw [if_pos hi]
      obtain ⟨k, hk, heq, hleast⟩ := ih (i + 1)
      refine ⟨k, by omega, heq, fun j hij hjk => ?_⟩
      rcases eq_or_lt_of_le hij with rfl | hlt
      exacts [hi, hleast j hlt hjk]
    · exact ⟨i, le_rfl, if_neg hi, fun j hij hji => absurd hij (by omega)⟩

theorem firstFresh_least (c : ℕ → α) (used : List α) :
    ∃ k, firstFresh c used = c k ∧ ∀ j < k, c j ∈ used :=
  let ⟨k, _, heq, hleast⟩ := freshFrom_least c used used.length 0
  ⟨k, heq, fun j hj => hleast j (Nat.zero_le j) hj⟩

theorem firstFresh_eq_zero (h : c 0 ∉ used) : firstFresh c used = c 0 := by
  unfold firstFresh
  cases used.length with
  | zero => rfl
  | succ n => rw [freshFrom, if_neg h]

end MlirAie.Lib
