import Mathlib

/-!
# Runs that cover their start

Steps that are repeated with a period, and that whatever is above a state can take too. A period
that leads to a state above the one it began in is run again, and again.

* `runFrom`: some steps one after another, as long as none blocks;
* `runFrom_mono`, `runFrom_add`, `runFrom_shift`: runs from above, in two parts, and a period later;
* **`runFrom_covering`**: a run that covers its start never blocks.
-/

namespace MlirAie.Lib

variable {σ : Type*} {step : ℕ → σ → Option σ} {le : σ → σ → Prop} {s s' t : σ} {k m n : ℕ}

/-- The state after `n` steps from number `k` on; none if one of them blocks. -/
def runFrom (step : ℕ → σ → Option σ) : ℕ → ℕ → σ → Option σ
  | _, 0, s => some s
  | k, n + 1, s => (step k s).bind (runFrom step (k + 1) n)

theorem runFrom_add (k m n : ℕ) (s : σ) :
    runFrom step k (m + n) s = (runFrom step k m s).bind (runFrom step (k + m) n) := by
  induction m generalizing k s with
  | zero => rw [Nat.zero_add, Nat.add_zero]; rfl
  | succ m ih =>
    rw [Nat.succ_add, runFrom, runFrom, Option.bind_assoc]
    refine congrArg _ (funext fun s' => ?_)
    rw [ih, Nat.succ_add_eq_add_succ]

theorem runFrom_mono
    (hmono : ∀ {k s t s'}, le s t → step k s = some s' → ∃ t', step k t = some t' ∧ le s' t')
    (hle : le s t) (h : runFrom step k n s = some s') :
    ∃ t', runFrom step k n t = some t' ∧ le s' t' := by
  induction n generalizing k s t with
  | zero =>
    obtain rfl := Option.some.inj h
    exact ⟨t, rfl, hle⟩
  | succ n ih =>
    obtain ⟨s₁, hs₁, h⟩ := Option.bind_eq_some_iff.1 h
    obtain ⟨t₁, ht₁, hle₁⟩ := hmono hle hs₁
    obtain ⟨t', ht', hle'⟩ := ih hle₁ h
    exact ⟨t', by rw [runFrom, ht₁, Option.bind_some, ht'], hle'⟩

theorem runFrom_shift {a period : ℕ} (hperiod : ∀ k, a ≤ k → step (k + period) = step k)
    (hk : a ≤ k) : runFrom step (k + period) n = runFrom step k n := by
  induction n generalizing k with
  | zero => rfl
  | succ n ih =>
    funext s
    rw [runFrom, runFrom, hperiod k hk, Nat.add_right_comm, ih (Nat.le_succ_of_le hk)]

theorem runFrom_prefix (h : (runFrom step k (m + n) s).isSome) : (runFrom step k m s).isSome := by
  rw [runFrom_add] at h
  exact Option.isSome_of_isSome_bind h

/-- **A run that covers its start never blocks.** -/
theorem runFrom_covering
    (hmono : ∀ {k s t s'}, le s t → step k s = some s' → ∃ t', step k t = some t' ∧ le s' t')
    {a period : ℕ} (hpos : 0 < period) (hperiod : ∀ k, a ≤ k → step (k + period) = step k)
    (hk : a ≤ k) (hrun : runFrom step k period s = some s') (hle : le s s') (n : ℕ) :
    (runFrom step k n s).isSome := by
  induction n using Nat.strong_induction_on with
  | _ n ih =>
    rcases le_or_gt n period with hn | hn
    · obtain ⟨m, rfl⟩ := Nat.exists_eq_add_of_le hn
      exact runFrom_prefix (by rw [hrun]; rfl)
    · obtain ⟨m, rfl⟩ := Nat.exists_eq_add_of_lt hn
      obtain ⟨t, ht⟩ := Option.isSome_iff_exists.1 (ih (m + 1) (by omega))
      obtain ⟨t', ht', -⟩ := runFrom_mono hmono hle ht
      rw [Nat.add_assoc, runFrom_add, hrun, Option.bind_some, runFrom_shift hperiod hk, ht']
      rfl

end MlirAie.Lib
