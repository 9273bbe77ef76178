import Mathlib

/-!
# Words that run into a loop

A word visits the positions `0, 1, …, n - 1` and from the last one goes to position `t` again. Cut
after its first `k` positions it goes to `t` from there. Read modulo `k`, the two words agree
exactly when the cut changes nothing or when every jump is one by a multiple of `k`.

* `turn`, `cutTurn`: what follows a position before and after the cut;
* **`cutTurn_mod_iff`**: when the two words agree modulo `k`.
-/

namespace MlirAie.Lib

/-- What follows position `i` of a word of `n` positions that goes back to position `t`. -/
@[grind =] def turn (n t i : ℕ) : ℕ := if i + 1 = n then t else i + 1

/-- What follows position `i` where the word is cut after its first `k` positions. -/
@[grind =] def cutTurn (k n t i : ℕ) : ℕ := if i + 1 = k then t else turn n t i

variable {k n t i : ℕ}

theorem turn_of_ne (h : i + 1 ≠ n) : turn n t i = i + 1 := if_neg h

theorem turn_of_eq (h : i + 1 = n) : turn n t i = t := if_pos h

theorem cutTurn_of_eq (h : i + 1 = k) : cutTurn k n t i = t := if_pos h

theorem cutTurn_of_ne (h : i + 1 ≠ k) : cutTurn k n t i = turn n t i := if_neg h

theorem turn_lt (ht : t < n) (hi : i < n) : turn n t i < n := by
  unfold turn
  split_ifs <;> omega

theorem cutTurn_lt (ht : t < n) (hi : i < n) : cutTurn k n t i < n := by
  unfold cutTurn
  split_ifs
  · exact ht
  · exact turn_lt ht hi

theorem iterate_lt {f : ℕ → ℕ} (hf : ∀ i, i < n → f i < n) (hn : 0 < n) (j : ℕ) :
    f^[j] 0 < n := by
  induction j with
  | zero => exact hn
  | succ j ih =>
    rw [Function.iterate_succ_apply']
    exact hf _ ih

/-- A stretch of positions without a jump is passed one by one. -/
theorem iterate_climb {f : ℕ → ℕ} {a : ℕ} (j : ℕ) (hf : ∀ i, i < j → f (a + i) = a + i + 1) :
    f^[j] a = a + j := by
  induction j with
  | zero => rfl
  | succ j ih =>
    rw [Function.iterate_succ_apply', ih fun i hi => hf i (by omega), hf j (by omega)]
    rfl

theorem turn_iterate (hi : i < n) : (turn n t)^[i] 0 = i := by
  rw [iterate_climb i fun j hj => by rw [turn_of_ne (by omega)], zero_add]

theorem cutTurn_iterate_start (hk : 0 < k) (hkn : k < n) : (cutTurn k n t)^[k] 0 = t := by
  obtain ⟨m, rfl⟩ := Nat.exists_eq_add_of_lt hk
  rw [Function.iterate_succ_apply', iterate_climb (0 + m) fun j hj => by
    rw [cutTurn_of_ne (by omega), turn_of_ne (by omega)]]
  exact cutTurn_of_eq (by omega)

theorem cutTurn_iterate_round (htn : t < n) (hkt : k ≤ t) : (cutTurn k n t)^[n - t] t = t := by
  obtain ⟨m, rfl⟩ := Nat.exists_eq_add_of_lt htn
  have hm : t + m + 1 - t = m + 1 := by omega
  rw [hm, Function.iterate_succ_apply', iterate_climb m fun j hj => by
    rw [cutTurn_of_ne (by omega), turn_of_ne (by omega)]]
  rw [cutTurn_of_ne (by omega), turn_of_eq rfl]

theorem turn_iterate_round (htn : t < n) : (turn n t)^[n] 0 = t := by
  obtain ⟨m, rfl⟩ := Nat.exists_eq_add_of_lt htn
  rw [Function.iterate_succ_apply', turn_iterate (by omega)]
  exact turn_of_eq rfl

/-- A word that goes back to its start after the cut repeats its first `k` positions. -/
theorem cutTurn_zero_iterate (hk : 0 < k) (hkn : k < n) (j : ℕ) :
    (cutTurn k n 0)^[j] 0 = j % k := by
  induction j with
  | zero => exact (Nat.zero_mod k).symm
  | succ j ih =>
    have hlt : j % k < k := Nat.mod_lt j hk
    rw [Function.iterate_succ_apply', ih]
    by_cases heq : j % k + 1 = k
    · rw [cutTurn_of_eq heq, ← Nat.mod_add_mod, heq, Nat.mod_self]
    · rw [cutTurn_of_ne heq, turn_of_ne (by omega), ← Nat.mod_add_mod,
        Nat.mod_eq_of_lt (by omega : j % k + 1 < k)]

/-- Where every position is followed by the next one modulo `k`, so is the whole word. -/
theorem iterate_mod {f : ℕ → ℕ} (hf : ∀ i, f i % k = (i + 1) % k) (j : ℕ) :
    f^[j] 0 % k = j % k := by
  induction j with
  | zero => rfl
  | succ j ih => rw [Function.iterate_succ_apply', hf, Nat.add_mod, ih, ← Nat.add_mod]

theorem turn_mod (ht : k ∣ t) (hn : k ∣ n) (i : ℕ) : turn n t i % k = (i + 1) % k := by
  unfold turn
  split_ifs with h
  · rw [h, Nat.mod_eq_zero_of_dvd ht, Nat.mod_eq_zero_of_dvd hn]
  · rfl

theorem cutTurn_mod (ht : k ∣ t) (hn : k ∣ n) (i : ℕ) :
    cutTurn k n t i % k = (i + 1) % k := by
  unfold cutTurn
  split_ifs with h
  · rw [h, Nat.mod_eq_zero_of_dvd ht, Nat.mod_self]
  · exact turn_mod ht hn i

theorem cutTurn_eq_turn (h : t = k) : cutTurn k n t = turn n t := by
  funext i
  unfold cutTurn turn
  split_ifs <;> omega

/-- **The cut word reads the same modulo `k`** exactly if it goes back to the position after the
cut, or if both the target and the length are multiples of `k`. -/
theorem cutTurn_mod_iff (hk : 0 < k) (hkn : k < n) (htn : t < n) :
    (∀ i, (cutTurn k n t)^[i] 0 % k = (turn n t)^[i] 0 % k) ↔ t = k ∨ k ∣ t ∧ k ∣ n := by
  constructor
  · intro h
    have ht : k ∣ t := by
      have hstart := h k
      rw [cutTurn_iterate_start hk hkn, turn_iterate hkn, Nat.mod_self] at hstart
      exact Nat.dvd_of_mod_eq_zero hstart
    by_cases heq : t = k
    · exact Or.inl heq
    · refine Or.inr ⟨ht, ?_⟩
      rcases Nat.eq_zero_or_pos t with rfl | hpos
      · have hround := h n
        rw [cutTurn_zero_iterate hk hkn, turn_iterate_round htn, Nat.mod_mod, Nat.zero_mod]
          at hround
        exact Nat.dvd_of_mod_eq_zero hround
      · have hkt : k ≤ t := Nat.le_of_dvd hpos ht
        have hround := h (n - t + k)
        rw [Function.iterate_add_apply, cutTurn_iterate_start hk hkn,
          cutTurn_iterate_round htn hkt, turn_iterate (by omega), Nat.mod_eq_zero_of_dvd ht]
          at hround
        have hrest : k ∣ n - t + k := Nat.dvd_of_mod_eq_zero hround.symm
        have hsub : k ∣ n - t := (Nat.dvd_add_left (dvd_refl k)).1 hrest
        rw [← Nat.sub_add_cancel htn.le]
        exact dvd_add hsub ht
  · rintro (h | ⟨ht, hn⟩) i
    · rw [cutTurn_eq_turn h]
    · rw [iterate_mod (cutTurn_mod ht hn), iterate_mod (turn_mod ht hn)]

end MlirAie.Lib
