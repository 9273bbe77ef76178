import MlirAie.Lib.Worklist

/-!
# The worklist loop comes to an end

The worklist loop over a step that may itself not end. Where the elements come from a finite set
and the step ends on each of them, the loop ends; what it leaves is what can be reached.

* `closeWithin_mono`: more passes change nothing;
* **`closeWithin_ends`**: over a finite set, enough passes end it;
* **`mem_closeWithin`**: the list it ends with is the closure of the one it starts from.
-/

namespace MlirAie.Lib

open Relation

variable {α μ : Type*} [DecidableEq α]

/-- The loop from position `i` on, with what the passes record on the side. -/
def closeWithin (step : α → Option (List α × List μ)) :
    ℕ → ℕ → List α × List μ → Option (List α × List μ)
  | 0, _, _ => none
  | n + 1, i, r =>
    match r.1[i]? with
    | none => some r
    | some x => (step x).bind fun s => closeWithin step n (i + 1) (appendNew r.1 s.1, r.2 ++ s.2)

variable {step step' : α → Option (List α × List μ)} {n i : ℕ} {r o : List α × List μ}

theorem closeWithin_succ_none (h : r.1[i]? = none) : closeWithin step (n + 1) i r = some r := by
  rw [closeWithin, h]

theorem closeWithin_succ_some {x : α} (h : r.1[i]? = some x) :
    closeWithin step (n + 1) i r =
      (step x).bind fun s => closeWithin step n (i + 1) (appendNew r.1 s.1, r.2 ++ s.2) := by
  rw [closeWithin, h]

theorem closeWithin_cases (h : closeWithin step n i r = some o) :
    (r.1[i]? = none ∧ o = r) ∨ ∃ m x s, n = m + 1 ∧ r.1[i]? = some x ∧ step x = some s ∧
      closeWithin step m (i + 1) (appendNew r.1 s.1, r.2 ++ s.2) = some o := by
  cases n with
  | zero => cases h
  | succ m =>
    cases hx : r.1[i]? with
    | none =>
      rw [closeWithin_succ_none hx] at h
      exact .inl ⟨rfl, (Option.some.inj h).symm⟩
    | some x =>
      rw [closeWithin_succ_some hx] at h
      obtain ⟨s, hs, ho⟩ := Option.bind_eq_some_iff.1 h
      exact .inr ⟨m, x, s, rfl, rfl, hs, ho⟩

theorem closeWithin_mono (hstep : ∀ x s, step x = some s → step' x = some s) {m : ℕ} (hn : n ≤ m)
    (h : closeWithin step n i r = some o) : closeWithin step' m i r = some o := by
  induction n generalizing i r m with
  | zero => cases h
  | succ n ih =>
    obtain ⟨m, rfl⟩ := Nat.exists_eq_add_of_le' (Nat.one_le_of_lt hn)
    rcases closeWithin_cases h with ⟨hx, rfl⟩ | ⟨k, x, s, hk, hx, hs, ho⟩
    · exact closeWithin_succ_none hx
    · obtain rfl : k = n := by omega
      rw [closeWithin_succ_some hx, hstep x s hs]
      exact ih (by omega) ho

/-- **Enough passes end the loop**, where what it visits comes from a finite set. -/
theorem closeWithin_ends {step : ℕ → α → Option (List α × List μ)}
    (hmono : ∀ n m x s, n ≤ m → step n x = some s → step m x = some s) (univ : Finset α)
    (hends : ∀ x ∈ univ, ∃ n s, step n x = some s ∧ ∀ y ∈ s.1, y ∈ univ) (i : ℕ)
    (r : List α × List μ) (hr : ∀ x ∈ r.1, x ∈ univ) :
    ∃ n o, closeWithin (step n) n i r = some o := by
  -- A pass visits one element more, and each it appends was not in the list before.
  induction hm : (univ \ r.1.toFinset).card + (r.1.length - i) using Nat.strong_induction_on
    generalizing i r with
  | _ m ih =>
    cases hx : r.1[i]? with
    | none => exact ⟨1, r, closeWithin_succ_none hx⟩
    | some x =>
      obtain ⟨hi, -⟩ := List.getElem?_eq_some_iff.1 hx
      obtain ⟨n₁, s, hs, hsub⟩ := hends x (hr x (List.mem_of_getElem? hx))
      have hcount : ∀ (ys xs : List α), (∀ y ∈ xs, y ∈ univ) →
          (univ \ (appendNew ys xs).toFinset).card + (appendNew ys xs).length ≤
            (univ \ ys.toFinset).card + ys.length := by
        intro ys xs hxs
        induction xs generalizing ys with
        | nil => exact le_rfl
        | cons y xs ihx =>
          rw [appendNew_cons]
          refine (ihx _ fun z hz => hxs z (List.mem_cons_of_mem _ hz)).trans ?_
          split_ifs with hy
          · exact le_rfl
          · have hlt : (univ \ (ys ++ [y]).toFinset).card < (univ \ ys.toFinset).card := by
              refine Finset.card_lt_card ⟨?_, fun hall => ?_⟩
              · refine Finset.sdiff_subset_sdiff le_rfl fun z hz => ?_
                rw [List.toFinset_append]
                exact Finset.mem_union_left _ hz
              · have := hall (Finset.mem_sdiff.2
                  ⟨hxs y (List.mem_cons_self ..), fun h => hy (List.mem_toFinset.1 h)⟩)
                simp at this
            rw [List.length_append, List.length_singleton]
            omega
      have hle := hcount r.1 s.1 hsub
      have hlen : r.1.length ≤ (appendNew r.1 s.1).length := (prefix_appendNew r.1 s.1).length_le
      obtain ⟨n₂, o, ho⟩ := ih _ (by dsimp only; omega) (i + 1) (appendNew r.1 s.1, r.2 ++ s.2)
        (fun y hy => (mem_appendNew.1 hy).elim (hr y) (hsub y)) rfl
      refine ⟨max n₁ n₂ + 1, o, ?_⟩
      rw [closeWithin_succ_some hx, hmono n₁ _ x s (by omega) hs]
      exact closeWithin_mono (fun y t => hmono n₂ _ y t (by omega)) (by omega) ho

theorem closeWithin_forall {G : α → Prop} {P : μ → Prop}
    (hstep : ∀ x s, G x → step x = some s → (∀ y ∈ s.1, G y) ∧ ∀ e ∈ s.2, P e)
    (h : closeWithin step n i r = some o) (hr : ∀ x ∈ r.1, G x) (he : ∀ e ∈ r.2, P e) :
    (∀ x ∈ o.1, G x) ∧ ∀ e ∈ o.2, P e := by
  induction n generalizing i r with
  | zero => cases h
  | succ n ih =>
    rcases closeWithin_cases h with ⟨-, rfl⟩ | ⟨k, x, s, hk, hx, hs, ho⟩
    · exact ⟨hr, he⟩
    · obtain rfl : k = n := by omega
      obtain ⟨hG, hP⟩ := hstep x s (hr x (List.mem_of_getElem? hx)) hs
      refine ih ho (fun y hy => ?_) fun e hmem => ?_
      · exact (mem_appendNew.1 hy).elim (hr y) (hG y)
      · exact (List.mem_append.1 hmem).elim (he e) (hP e)

/-- **The loop ends with all that its elements reach** by the relation that the step lists. -/
theorem mem_closeWithin {M : α → α → Prop}
    (hM : ∀ x s, step x = some s → ∀ y, y ∈ s.1 ↔ M x y) (h : closeWithin step n i r = some o)
    (hvisited : ∀ x ∈ r.1.take i, ∀ y, M x y → y ∈ r.1) (y : α) :
    y ∈ o.1 ↔ ∃ x ∈ r.1, ReflTransGen M x y := by
  induction n generalizing i r with
  | zero => cases h
  | succ n ih =>
    rcases closeWithin_cases h with ⟨hnone, rfl⟩ | ⟨k, x, s, hk, hx, hs, ho⟩
    · -- Every element has been visited: the list is closed.
      rw [List.take_of_length_le (List.getElem?_eq_none_iff.1 hnone)] at hvisited
      refine ⟨fun hy => ⟨y, hy, .refl⟩, ?_⟩
      rintro ⟨x, hx, hxy⟩
      clear ih
      induction hxy with
      | refl => exact hx
      | tail _ hstep ihx => exact hvisited _ ihx _ hstep
    · obtain rfl : k = n := by omega
      have hmem : x ∈ r.1 := List.mem_of_getElem? hx
      rw [ih ho fun z hz w hw => ?_]
      · constructor
        · rintro ⟨z, hz, hzy⟩
          rcases mem_appendNew.1 hz with hz | hz
          · exact ⟨z, hz, hzy⟩
          · exact ⟨x, hmem, hzy.head ((hM x s hs z).1 hz)⟩
        · rintro ⟨z, hz, hzy⟩
          exact ⟨z, mem_appendNew.2 (.inl hz), hzy⟩
      · obtain ⟨tail, htail⟩ := prefix_appendNew r.1 s.1
        obtain ⟨hi, rfl⟩ := List.getElem?_eq_some_iff.1 hx
        rw [← htail, List.take_append_of_le_length (by omega), List.take_add_one,
          List.getElem?_eq_getElem hi] at hz
        rcases List.mem_append.1 hz with hz | hz
        · exact mem_appendNew.2 (.inl (hvisited z hz w hw))
        · obtain rfl : z = r.1[i] := by simpa using hz
          exact mem_appendNew.2 (.inr ((hM _ s hs w).2 hw))

theorem nodup_closeWithin (h : closeWithin step n i r = some o) (hr : r.1.Nodup) : o.1.Nodup := by
  induction n generalizing i r with
  | zero => cases h
  | succ n ih =>
    rcases closeWithin_cases h with ⟨-, rfl⟩ | ⟨k, x, s, hk, hx, hs, ho⟩
    · exact hr
    · obtain rfl : k = n := by omega
      exact ih ho (nodup_appendNew hr)

theorem prefix_closeWithin (h : closeWithin step n i r = some o) : r.1 <+: o.1 := by
  induction n generalizing i r with
  | zero => cases h
  | succ n ih =>
    rcases closeWithin_cases h with ⟨-, rfl⟩ | ⟨k, x, s, hk, hx, hs, ho⟩
    · exact List.prefix_rfl
    · obtain rfl : k = n := by omega
      exact (prefix_appendNew r.1 s.1).trans (ih ho)

theorem closeFrom_of_closeWithin {ν : Type*} (step' : α → List α × List ν)
    (hstep : ∀ x s, step x = some s → (step' x).1 = s.1) (h : closeWithin step n i r = some o)
    {fuel : ℕ} (hfuel : o.1.length ≤ fuel + i) (out : List ν) :
    (closeFrom step' fuel i (r.1, out)).1 = o.1 := by
  induction n generalizing i r fuel out with
  | zero => cases h
  | succ n ih =>
    rcases closeWithin_cases h with ⟨hnone, rfl⟩ | ⟨k, x, s, hk, hx, hs, ho⟩
    · cases fuel with
      | zero => rfl
      | succ fuel =>
        rw [closeFrom]
        dsimp only
        rw [hnone]
    · obtain rfl : k = n := by omega
      have hlen : i < o.1.length := by
        obtain ⟨hi, -⟩ := List.getElem?_eq_some_iff.1 hx
        have := (prefix_closeWithin ho).length_le
        have := (prefix_appendNew r.1 s.1).length_le
        dsimp only at *
        omega
      obtain ⟨fuel, rfl⟩ := Nat.exists_eq_add_of_le' (show 1 ≤ fuel by omega)
      rw [closeFrom]
      dsimp only
      rw [hx]
      dsimp only
      rw [hstep x s hs]
      exact ih ho (by omega) _

end MlirAie.Lib
