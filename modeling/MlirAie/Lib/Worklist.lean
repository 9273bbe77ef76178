import Mathlib

/-!
# Closing a list under a step

The worklist loop: every element of a list is visited once, in order, and what the step makes of
it is appended unless it is there already. Where the elements come from a finite set, as many
passes as the set has elements leave nothing to visit.

* `appendNew`: append without repetition;
* `closeFrom`: the loop, with what the passes output on the side;
* **`closeFrom_closed`**: with enough passes the list is closed under the step.
-/

namespace MlirAie.Lib

variable {α μ : Type*} [DecidableEq α]

/-- The elements of `xs` appended to `ys` that are not there yet. -/
def appendNew (ys xs : List α) : List α :=
  xs.foldl (fun ys x => if x ∈ ys then ys else ys ++ [x]) ys

theorem appendNew_cons (ys xs : List α) (x : α) :
    appendNew ys (x :: xs) = appendNew (if x ∈ ys then ys else ys ++ [x]) xs := rfl

theorem appendNew_singleton_of_mem {xs : List α} {x : α} (h : x ∈ xs) : appendNew xs [x] = xs := by
  rw [appendNew_cons, if_pos h]
  rfl

theorem appendNew_singleton {xs : List α} {x : α} (h : x ∉ xs) :
    appendNew xs [x] = xs ++ [x] := by
  rw [appendNew_cons, if_neg h]
  rfl

@[simp] theorem mem_appendNew {ys xs : List α} {a : α} :
    a ∈ appendNew ys xs ↔ a ∈ ys ∨ a ∈ xs := by
  induction xs generalizing ys with
  | nil => simp [appendNew]
  | cons x xs ih =>
    rw [appendNew_cons, ih, List.mem_cons]
    split_ifs with hx
    · refine ⟨fun h => h.imp_right .inr, ?_⟩
      rintro (h | rfl | h)
      · exact .inl h
      · exact .inl hx
      · exact .inr h
    · rw [List.mem_append, List.mem_singleton, or_assoc]

theorem nodup_appendNew {ys xs : List α} (h : ys.Nodup) : (appendNew ys xs).Nodup := by
  induction xs generalizing ys with
  | nil => exact h
  | cons x xs ih =>
    rw [appendNew_cons]
    split_ifs with hx
    · exact ih h
    · refine ih (List.nodup_append.2 ⟨h, List.nodup_singleton x, ?_⟩)
      rintro a ha b hb rfl
      exact hx (List.mem_singleton.1 hb ▸ ha)

theorem prefix_appendNew (ys xs : List α) : ys <+: appendNew ys xs := by
  induction xs generalizing ys with
  | nil => exact List.prefix_rfl
  | cons x xs ih =>
    rw [appendNew_cons]
    split_ifs
    · exact ih ys
    · exact (List.prefix_append ys [x]).trans (ih _)

/-- The loop from position `i` on, for at most the given number of passes. -/
@[grind =] def closeFrom (step : α → List α × List μ) : ℕ → ℕ → List α × List μ → List α × List μ
  | 0, _, r => r
  | fuel + 1, i, r =>
    match r.1[i]? with
    | none => r
    | some x => closeFrom step fuel (i + 1) (appendNew r.1 (step x).1, r.2 ++ (step x).2)

variable {step : α → List α × List μ}

/-- `x` needs no further visit. -/
def Visited (step : α → List α × List μ) (r : List α × List μ) (x : α) : Prop :=
  (step x).1 ⊆ r.1 ∧ (step x).2 ⊆ r.2

theorem closeFrom_grows (step : α → List α × List μ) (fuel i : ℕ) (r : List α × List μ) :
    r.1 ⊆ (closeFrom step fuel i r).1 ∧ r.2 ⊆ (closeFrom step fuel i r).2 := by
  induction fuel generalizing i r with
  | zero => exact ⟨List.Subset.refl _, List.Subset.refl _⟩
  | succ fuel ih =>
    rw [closeFrom]
    split
    · exact ⟨List.Subset.refl _, List.Subset.refl _⟩
    · rename_i x _
      obtain ⟨h₁, h₂⟩ := ih (i + 1) (appendNew r.1 (step x).1, r.2 ++ (step x).2)
      exact ⟨fun a ha => h₁ (mem_appendNew.2 (.inl ha)),
        fun a ha => h₂ (List.mem_append_left _ ha)⟩

theorem closeFrom_forall {G : α → Prop} (hstep : ∀ x, G x → ∀ y ∈ (step x).1, G y) (fuel i : ℕ)
    {r : List α × List μ} (hr : ∀ x ∈ r.1, G x) : ∀ x ∈ (closeFrom step fuel i r).1, G x := by
  induction fuel generalizing i r with
  | zero => exact hr
  | succ fuel ih =>
    rw [closeFrom]
    split
    · exact hr
    · rename_i x hx
      refine ih (i + 1) fun y hy => ?_
      rcases mem_appendNew.1 hy with hy | hy
      · exact hr y hy
      · exact hstep x (hr x (List.mem_of_getElem? hx)) y hy

theorem nodup_closeFrom (fuel i : ℕ) {r : List α × List μ} (h : r.1.Nodup) :
    (closeFrom step fuel i r).1.Nodup := by
  induction fuel generalizing i r with
  | zero => exact h
  | succ fuel ih =>
    rw [closeFrom]
    split
    · exact h
    · exact ih (i + 1) (nodup_appendNew h)

/-- **Enough passes close the list**: every element of it has been visited. -/
theorem closeFrom_closed (univ : List α) (hstep : ∀ x ∈ univ, (step x).1 ⊆ univ) {fuel i : ℕ}
    {r : List α × List μ} (hsub : r.1 ⊆ univ) (hnodup : r.1.Nodup)
    (hfuel : univ.length ≤ fuel + i) (hvisited : ∀ x ∈ r.1.take i, Visited step r x) :
    ∀ x ∈ (closeFrom step fuel i r).1, Visited step (closeFrom step fuel i r) x := by
  induction fuel generalizing i r with
  | zero =>
    have hlen : r.1.length ≤ univ.length := (hnodup.subperm hsub).length_le
    rwa [List.take_of_length_le (by omega)] at hvisited
  | succ fuel ih =>
    rw [closeFrom]
    split
    · rename_i hnone
      rwa [List.take_of_length_le (List.getElem?_eq_none_iff.1 hnone)] at hvisited
    · rename_i x hx
      have hmem : x ∈ r.1 := List.mem_of_getElem? hx
      refine ih (fun y hy => ?_) (nodup_appendNew hnodup) (by omega) fun y hy => ?_
      · rcases mem_appendNew.1 hy with hy | hy
        · exact hsub hy
        · exact hstep x (hsub hmem) hy
      · have htake : (appendNew r.1 (step x).1).take (i + 1) = r.1.take i ++ [x] := by
          obtain ⟨tail, htail⟩ := prefix_appendNew r.1 (step x).1
          obtain ⟨hi, rfl⟩ := List.getElem?_eq_some_iff.1 hx
          rw [← htail, List.take_append_of_le_length (by omega), List.take_add_one,
            List.getElem?_eq_getElem hi]
          rfl
        rw [htake] at hy
        rcases List.mem_append.1 hy with hy | hy
        · obtain ⟨h₁, h₂⟩ := hvisited y hy
          exact ⟨fun a ha => mem_appendNew.2 (.inl (h₁ ha)),
            fun a ha => List.mem_append_left _ (h₂ ha)⟩
        · obtain rfl := List.mem_singleton.1 hy
          exact ⟨fun a ha => mem_appendNew.2 (.inr ha), fun a ha => List.mem_append_right _ ha⟩

end MlirAie.Lib
