import Mathlib

/-!
# Searching with undo

A search tries one choice after another on a state. A choice that leads nowhere is undone before
the next one is tried; what the search has spent and noted on the way is kept.

* `Outcome`: how an attempt ends;
* **`Undoes.tryEach`**, **`tryEach_found`**: a loop of such attempts is one, and succeeds as one of
  them does, from the state the loop began in;
* **`tryEach_failed`**: a loop that fails has tried every choice from the state it began in.
-/

namespace MlirAie.Lib

variable {ι σ κ : Type*}

/-- How an attempt ends: whether it succeeded, the state, and what the search has spent. -/
structure Outcome (σ κ : Type*) where
  found : Bool
  state : σ
  spent : κ

/-- Tries each choice in turn until one succeeds. -/
def tryEach (attempt : ι → σ → κ → Outcome σ κ) : List ι → σ → κ → Outcome σ κ
  | [], s, k => ⟨false, s, k⟩
  | i :: is, s, k =>
    let r := attempt i s k
    if r.found then r else tryEach attempt is r.state r.spent

attribute [local simp] tryEach

/-- Where it fails, the attempt leaves `s` as it was. -/
def Undoes (attempt : σ → κ → Outcome σ κ) (s : σ) : Prop :=
  ∀ k, (attempt s k).found = false → (attempt s k).state = s

variable {attempt : ι → σ → κ → Outcome σ κ} {s : σ}

theorem Undoes.tryEach {is : List ι} (h : ∀ i ∈ is, Undoes (attempt i) s) :
    Undoes (tryEach attempt is) s := by
  intro k
  induction is generalizing k with
  | nil => exact fun _ => rfl
  | cons i is ih =>
    rw [Lib.tryEach]
    by_cases hi : (attempt i s k).found = true
    · simp only [hi, ↓reduceIte]
      intro hf
      cases hf
    · have hstate := h i List.mem_cons_self k (Bool.not_eq_true _ ▸ hi)
      simp only [hi, Bool.false_eq_true, ↓reduceIte, hstate]
      exact ih (fun j hj => h j (List.mem_cons_of_mem i hj)) _

/-- **The loop succeeds as one of its attempts does**, from the state the loop began in. -/
theorem tryEach_found {is : List ι} (h : ∀ i ∈ is, Undoes (attempt i) s) {k : κ}
    (hfound : (tryEach attempt is s k).found = true) :
    ∃ i ∈ is, ∃ k', (attempt i s k').found = true ∧ tryEach attempt is s k = attempt i s k' := by
  induction is generalizing k with
  | nil => cases hfound
  | cons i is ih =>
    rw [tryEach] at hfound ⊢
    by_cases hi : (attempt i s k).found = true
    · simp only [hi, ↓reduceIte]
      exact ⟨i, List.mem_cons_self, k, hi, rfl⟩
    · have hstate := h i List.mem_cons_self k (Bool.not_eq_true _ ▸ hi)
      simp only [hi, Bool.false_eq_true, ↓reduceIte, hstate] at hfound ⊢
      obtain ⟨j, hj, k', hk'⟩ := ih (fun j hj => h j (List.mem_cons_of_mem i hj)) hfound
      exact ⟨j, List.mem_cons_of_mem i hj, k', hk'⟩

theorem tryEach_spent {is : List ι} {W : κ → Prop} (h : ∀ i ∈ is, Undoes (attempt i) s)
    (hback : ∀ i ∈ is, ∀ k, W (attempt i s k).spent → W k) {k : κ}
    (hk : W (tryEach attempt is s k).spent) : W k := by
  induction is generalizing k with
  | nil => exact hk
  | cons i is ih =>
    rw [tryEach] at hk
    by_cases hi : (attempt i s k).found = true
    · simp only [hi, ↓reduceIte] at hk
      exact hback i List.mem_cons_self k hk
    · have hstate := h i List.mem_cons_self k (Bool.not_eq_true _ ▸ hi)
      simp only [hi, Bool.false_eq_true, ↓reduceIte, hstate] at hk
      exact hback i List.mem_cons_self k (ih (fun j hj => h j (List.mem_cons_of_mem i hj))
        (fun j hj => hback j (List.mem_cons_of_mem i hj)) hk)

/-- **A loop that fails has tried every choice** from the state it began in: if a failed attempt
within the budget (`W`) shows its choice to be hopeless (`H`) and keeps what the search notes on the
way (`N`), all choices are, and what it noted stands. -/
theorem tryEach_failed {is : List ι} {W N : κ → Prop} {H : ι → Prop}
    (h : ∀ i ∈ is, Undoes (attempt i) s)
    (hback : ∀ i ∈ is, ∀ k, W (attempt i s k).spent → W k)
    (hstep : ∀ i ∈ is, ∀ k, N k → (attempt i s k).found = false → W (attempt i s k).spent →
      H i ∧ N (attempt i s k).spent)
    {k : κ} (hk : N k) (hfound : (tryEach attempt is s k).found = false)
    (hspent : W (tryEach attempt is s k).spent) :
    (∀ i ∈ is, H i) ∧ N (tryEach attempt is s k).spent := by
  induction is generalizing k with
  | nil => exact ⟨fun i hi => absurd hi List.not_mem_nil, hk⟩
  | cons i is ih =>
    rw [tryEach] at hfound hspent ⊢
    by_cases hi : (attempt i s k).found = true
    · simp [hi] at hfound
    have hi : (attempt i s k).found = false := Bool.not_eq_true _ ▸ hi
    have hstate := h i List.mem_cons_self k hi
    have hrest : ∀ j ∈ is, Undoes (attempt j) s := fun j hj => h j (List.mem_cons_of_mem i hj)
    have hback' : ∀ j ∈ is, ∀ k, W (attempt j s k).spent → W k :=
      fun j hj => hback j (List.mem_cons_of_mem i hj)
    simp only [hi, Bool.false_eq_true, ↓reduceIte, hstate] at hfound hspent ⊢
    obtain ⟨hbad, hnoted⟩ := hstep i List.mem_cons_self k hk hi (tryEach_spent hrest hback' hspent)
    obtain ⟨hall, hlast⟩ := ih hrest hback' (fun j hj => hstep j (List.mem_cons_of_mem i hj)) hnoted
      hfound hspent
    refine ⟨fun j hj => ?_, hlast⟩
    rcases List.mem_cons.1 hj with rfl | hj
    exacts [hbad, hall j hj]

/-- **What a loop spends** is no more than its attempts may. -/
theorem tryEach_within {is : List ι} {W : κ → Prop} {left : κ → ℤ} {cost : ι → ℕ}
    (h : ∀ i ∈ is, Undoes (attempt i) s)
    (hstep : ∀ i ∈ is, ∀ k, W k → cost i ≤ left k →
      W (attempt i s k).spent ∧ left k - cost i ≤ left (attempt i s k).spent)
    {k : κ} (hk : W k) (hle : ((is.map cost).sum : ℤ) ≤ left k) :
    W (tryEach attempt is s k).spent ∧
      left k - (is.map cost).sum ≤ left (tryEach attempt is s k).spent := by
  induction is generalizing k with
  | nil => exact ⟨hk, by simp [tryEach]⟩
  | cons i is ih =>
    rw [List.map_cons, List.sum_cons, Nat.cast_add] at hle ⊢
    obtain ⟨hone, hleft⟩ := hstep i List.mem_cons_self k hk (by omega)
    rw [tryEach]
    by_cases hi : (attempt i s k).found = true
    · simp only [hi, ↓reduceIte]
      exact ⟨hone, by omega⟩
    · have hstate := h i List.mem_cons_self k (Bool.not_eq_true _ ▸ hi)
      simp only [hi, Bool.false_eq_true, ↓reduceIte, hstate]
      obtain ⟨hlast, hrest⟩ := ih (fun j hj => h j (List.mem_cons_of_mem i hj))
        (fun j hj => hstep j (List.mem_cons_of_mem i hj)) hone (by omega)
      exact ⟨hlast, by omega⟩

def Outcome.map {σ' κ' : Type*} (ψ : σ → σ') (χ : κ → κ') (r : Outcome σ κ) : Outcome σ' κ' :=
  ⟨r.found, ψ r.state, χ r.spent⟩

theorem tryEach_map {ι' σ' κ' : Type*} {attempt' : ι' → σ' → κ' → Outcome σ' κ'} {φ : ι → ι'}
    {ψ : σ → σ'} {χ : κ → κ'} {is : List ι}
    (h : ∀ i ∈ is, ∀ s k, attempt' (φ i) (ψ s) (χ k) = (attempt i s k).map ψ χ) (s : σ) (k : κ) :
    tryEach attempt' (is.map φ) (ψ s) (χ k) = (tryEach attempt is s k).map ψ χ := by
  induction is generalizing s k with
  | nil => rfl
  | cons i is ih =>
    rw [List.map_cons, tryEach, tryEach, h i List.mem_cons_self]
    by_cases hi : (attempt i s k).found = true
    · simp only [Outcome.map, hi, if_true]
    · simp only [Outcome.map, hi, if_false, Bool.false_eq_true]
      exact ih (fun j hj => h j (List.mem_cons_of_mem i hj)) _ _

end MlirAie.Lib
