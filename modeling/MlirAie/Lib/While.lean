import Mathlib

/-!
# While loops whose body may fail

A `Loop` is a guard and a body; the body either fails or gives the next state. Runs are on fuel,
and everything about them is read off the states the loop head is reached with.

* **`Loop.halts_of_measure`**: a measure every iteration decreases bounds the fuel;
* **`Loop.diverges`**: a set of states no iteration leaves is never left;
* **`Loop.error_iff`**: a loop fails with `e` exactly when the body does at a reached state.
-/

namespace MlirAie.Lib

/-- A guard and a body that may fail. -/
structure Loop (σ ε : Type*) where
  guard : σ → Bool
  body : σ → Except ε σ

namespace Loop

variable {σ ε : Type*} (L : Loop σ ε)

/-- Run the loop on `fuel` evaluations of the guard. -/
@[grind =] def run : ℕ → σ → Option (Except ε σ)
  | 0, _ => none
  | fuel + 1, s =>
    if L.guard s then
      match L.body s with
      | .error e => some (.error e)
      | .ok t => run fuel t
    else some (.ok s)

/-- One completed iteration. -/
def Steps (s t : σ) : Prop := L.guard s = true ∧ L.body s = .ok t

def Reaches : σ → σ → Prop := Relation.ReflTransGen L.Steps

variable {L}

theorem run_exit {s : σ} (h : L.guard s = false) (fuel : ℕ) :
    L.run (fuel + 1) s = some (.ok s) := by
  simp [run, h]

theorem run_error {s : σ} {e : ε} (hg : L.guard s = true) (hb : L.body s = .error e) (fuel : ℕ) :
    L.run (fuel + 1) s = some (.error e) := by
  simp [run, hg, hb]

theorem run_step {s t : σ} (h : L.Steps s t) (fuel : ℕ) : L.run (fuel + 1) s = L.run fuel t := by
  simp [run, h.1, h.2]

/-- At the loop head there are three cases: exit, failure, or one more iteration. -/
theorem head_cases (L : Loop σ ε) (s : σ) :
    L.guard s = false ∨ (∃ e, L.guard s = true ∧ L.body s = .error e) ∨ ∃ t, L.Steps s t := by
  cases hg : L.guard s with
  | false => exact .inl rfl
  | true =>
    cases hb : L.body s with
    | error e => exact .inr (.inl ⟨e, rfl, rfl⟩)
    | ok t => exact .inr (.inr ⟨t, hg, hb⟩)

/-- More fuel changes nothing. -/
theorem run_mono {r : Except ε σ} :
    ∀ {m : ℕ} {s : σ}, L.run m s = some r → ∀ k, L.run (m + k) s = some r
  | m + 1, s, h, k => by
    rw [Nat.add_right_comm]
    rcases L.head_cases s with hg | ⟨e, hg, hb⟩ | ⟨t, ht⟩
    · rwa [run_exit hg] at h ⊢
    · rwa [run_error hg hb] at h ⊢
    · rw [run_step ht] at h ⊢
      exact run_mono h k

theorem Reaches.run_iff {s t : σ} (h : L.Reaches s t) (r : Except ε σ) :
    (∃ fuel, L.run fuel s = some r) ↔ ∃ fuel, L.run fuel t = some r := by
  induction h using Relation.ReflTransGen.head_induction_on with
  | refl => rfl
  | head hst _ ih =>
    rw [← ih]
    refine ⟨fun ⟨fuel, hf⟩ => ?_, fun ⟨fuel, hf⟩ => ⟨fuel + 1, by rwa [run_step hst]⟩⟩
    cases fuel with
    | zero => simp [run] at hf
    | succ fuel => exact ⟨fuel, by rwa [run_step hst] at hf⟩

/-- **Termination by a measure.** -/
theorem halts_of_measure (μ : σ → ℕ) {s : σ}
    (hμ : ∀ t u, L.Reaches s t → L.Steps t u → μ u < μ t) :
    ∃ r, L.run (μ s + 1) s = some r := by
  induction hn : μ s using Nat.strongRecOn generalizing s with
  | ind n ih =>
    rcases L.head_cases s with hg | ⟨e, hg, hb⟩ | ⟨t, ht⟩
    · exact ⟨_, run_exit hg _⟩
    · exact ⟨_, run_error hg hb _⟩
    · have hlt : μ t < n := hn ▸ hμ s t .refl ht
      obtain ⟨r, hr⟩ := ih (μ t) hlt (fun a b hta hab => hμ a b (hta.head ht) hab) rfl
      refine ⟨r, ?_⟩
      rw [run_step ht, show n = μ t + 1 + (n - (μ t + 1)) by omega]
      exact run_mono hr _

/-- **Divergence.** A reached state of a set no iteration leaves keeps the loop going forever. -/
theorem diverges {P : σ → Prop} (hP : ∀ t, P t → ∃ u, L.Steps t u ∧ P u) {s t : σ}
    (hst : L.Reaches s t) (ht : P t) (fuel : ℕ) : L.run fuel s = none := by
  have forever : ∀ (fuel : ℕ) (t : σ), P t → L.run fuel t = none := by
    intro fuel
    induction fuel with
    | zero => exact fun _ _ => rfl
    | succ fuel ih =>
      intro t ht
      obtain ⟨u, htu, hu⟩ := hP t ht
      rw [run_step htu, ih u hu]
  by_contra hne
  obtain ⟨r, hr⟩ := Option.ne_none_iff_exists'.1 hne
  obtain ⟨fuel', hr'⟩ := (hst.run_iff r).1 ⟨fuel, hr⟩
  rw [forever fuel' t ht] at hr'
  cases hr'

/-- **Failure.** The loop fails with `e` exactly when the body does at a reached state. -/
theorem error_iff (s : σ) (e : ε) :
    (∃ fuel, L.run fuel s = some (.error e)) ↔
      ∃ t, L.Reaches s t ∧ L.guard t = true ∧ L.body t = .error e := by
  constructor
  · rintro ⟨fuel, hf⟩
    induction fuel generalizing s with
    | zero => simp [run] at hf
    | succ fuel ih =>
      rcases L.head_cases s with hg | ⟨e', hg, hb⟩ | ⟨t, ht⟩
      · rw [run_exit hg] at hf
        cases hf
      · rw [run_error hg hb] at hf
        obtain rfl : e' = e := by injection hf with hf; injection hf
        exact ⟨s, .refl, hg, hb⟩
      · rw [run_step ht] at hf
        obtain ⟨u, htu, hu⟩ := ih t hf
        exact ⟨u, htu.head ht, hu⟩
  · rintro ⟨t, hst, hg, hb⟩
    exact (hst.run_iff _).2 ⟨1, run_error hg hb 0⟩

/-- **The result of a run**, from what holds at the loop head. -/
theorem run_result {P : σ → Prop} {Q : Except ε σ → Prop}
    (hexit : ∀ s, P s → L.guard s = false → Q (.ok s))
    (herror : ∀ s e, P s → L.body s = .error e → Q (.error e))
    (hstep : ∀ s t, P s → L.Steps s t → P t) {fuel : ℕ} {s : σ} {r : Except ε σ} (hs : P s)
    (h : L.run fuel s = some r) : Q r := by
  induction fuel generalizing s with
  | zero => cases h
  | succ fuel ih =>
    rcases L.head_cases s with hg | ⟨e, hg, hb⟩ | ⟨t, ht⟩
    · rw [run_exit hg] at h
      exact Option.some_inj.1 h ▸ hexit s hs hg
    · rw [run_error hg hb] at h
      exact Option.some_inj.1 h ▸ herror s e hs hb
    · rw [run_step ht] at h
      exact ih (hstep s t hs ht) h

end Loop

end MlirAie.Lib
