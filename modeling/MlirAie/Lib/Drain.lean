import Mathlib

/-!
# Draining a stack

A loop takes the last element of a stack, puts what it leads to back on, and collects what it
outputs, until the stack is empty. Where what an element leads to is below it in a well-founded
order, the stack empties. A loop that marks what it visits, and skips what is marked, always ends.

* **`mem_drain`**: what comes out is what the elements led to output;
* **`exists_drain`**, **`exists_drain_iff`**: when the stack empties;
* `visit`: the loop that marks; **`visit_closed`**: with enough passes, what was visited is closed
  and holds the stack.
-/

namespace MlirAie.Lib

section Drain

variable {α β : Type*}

/-- The loop, the end of the stack first, for at most the given number of passes. -/
@[grind =] def drain (step : α → List α × List β) : ℕ → List α → List β → Option (List β)
  | _, [], out => some out
  | 0, _ :: _, _ => none
  | fuel + 1, x :: stack, out =>
    drain step fuel ((step x).1.reverse ++ stack) (out ++ (step x).2)

variable {step : α → List α × List β}

/-- `y` is one of the elements `x` leads to at once. -/
def Leads (step : α → List α × List β) (x y : α) : Prop := y ∈ (step x).1

theorem drain_mono {fuel fuel' : ℕ} {stack : List α} {out r : List β} (hle : fuel ≤ fuel')
    (h : drain step fuel stack out = some r) : drain step fuel' stack out = some r := by
  induction fuel generalizing fuel' stack out with
  | zero =>
    cases stack with
    | nil => rw [drain] at h ⊢; exact h
    | cons x stack => cases h
  | succ fuel ih =>
    cases stack with
    | nil => rw [drain] at h ⊢; exact h
    | cons x stack =>
      obtain ⟨n, rfl⟩ := Nat.exists_eq_add_of_le' (Nat.lt_of_lt_of_le (Nat.succ_pos fuel) hle)
      rw [drain] at h ⊢
      exact ih (Nat.le_of_succ_le_succ hle) h

/-- Outputs seen through a map. -/
theorem drain_map {γ : Type*} {step' : α → List α × List γ} {f : β → γ}
    (h : ∀ x, step' x = ((step x).1, (step x).2.map f)) (fuel : ℕ) (stack : List α)
    (out : List β) :
    drain step' fuel stack (out.map f) = (drain step fuel stack out).map (List.map f) := by
  induction fuel generalizing stack out with
  | zero => cases stack <;> simp [drain]
  | succ fuel ih =>
    cases stack with
    | nil => simp [drain]
    | cons x stack => rw [drain, drain, h, ← List.map_append, ih]

/-- **What comes out**: what the elements of the stack, and those they lead to, output. -/
theorem mem_drain {fuel : ℕ} {stack : List α} {out r : List β}
    (h : drain step fuel stack out = some r) {b : β} :
    b ∈ r ↔ b ∈ out ∨ ∃ x ∈ stack, ∃ y, Relation.ReflTransGen (Leads step) x y ∧
      b ∈ (step y).2 := by
  induction fuel generalizing stack out with
  | zero =>
    cases stack with
    | nil => cases h; simp
    | cons x stack => cases h
  | succ fuel ih =>
    cases stack with
    | nil => cases h; simp
    | cons x stack =>
      rw [drain] at h
      rw [ih h, List.mem_append, or_assoc]
      refine or_congr_right ⟨?_, ?_⟩
      · rintro (hb | ⟨z, hz, y, hzy, hb⟩)
        · exact ⟨x, List.mem_cons_self, x, .refl, hb⟩
        · rcases List.mem_append.1 hz with hz | hz
          · exact ⟨x, List.mem_cons_self, y, .head (List.mem_reverse.1 hz) hzy, hb⟩
          · exact ⟨z, List.mem_cons_of_mem x hz, y, hzy, hb⟩
      · rintro ⟨z, hz, y, hzy, hb⟩
        rcases List.mem_cons.1 hz with rfl | hz
        · rcases hzy.cases_head with rfl | ⟨w, hw, hwy⟩
          · exact .inl hb
          · exact .inr ⟨w, List.mem_append_left _ (List.mem_reverse.2 hw), y, hwy, hb⟩
        · exact .inr ⟨z, List.mem_append_right _ hz, y, hzy, hb⟩

theorem exists_drain_list (xs : List α)
    (h : ∀ x ∈ xs, ∃ n outs, ∀ m stack out,
      drain step (n + m) (x :: stack) out = drain step m stack (out ++ outs)) :
    ∃ n outs, ∀ m stack out,
      drain step (n + m) (xs ++ stack) out = drain step m stack (out ++ outs) := by
  induction xs with
  | nil => exact ⟨0, [], fun m stack out => by rw [List.nil_append, zero_add, List.append_nil]⟩
  | cons x xs ih =>
    obtain ⟨n, outs, hx⟩ := h x List.mem_cons_self
    obtain ⟨n', outs', hxs⟩ := ih fun y hy => h y (List.mem_cons_of_mem x hy)
    refine ⟨n + n', outs ++ outs', fun m stack out => ?_⟩
    rw [List.cons_append, add_assoc, hx, hxs, List.append_assoc]

theorem exists_drain_of_acc {x : α} (h : Acc (fun y x => Leads step x y) x) :
    ∃ n outs, ∀ m stack out,
      drain step (n + m) (x :: stack) out = drain step m stack (out ++ outs) := by
  induction h with
  | intro x _ ih =>
    obtain ⟨n, outs, hn⟩ := exists_drain_list (step x).1.reverse fun y hy =>
      ih y (List.mem_reverse.1 hy)
    refine ⟨n + 1, (step x).2 ++ outs, fun m stack out => ?_⟩
    rw [Nat.add_right_comm, drain, hn, List.append_assoc]

/-- **The stack empties** where its elements lead down a well-founded order. -/
theorem exists_drain {stack : List α} (h : ∀ x ∈ stack, Acc (fun y x => Leads step x y) x)
    (out : List β) : ∃ n r, ∀ m ≥ n, drain step m stack out = some r := by
  obtain ⟨n, outs, hn⟩ := exists_drain_list stack fun x hx => exists_drain_of_acc (h x hx)
  refine ⟨n, out ++ outs, fun m hm => drain_mono hm ?_⟩
  have := hn 0 [] out
  rw [List.append_nil, add_zero] at this
  rw [this, drain]

/-- **Only then does it empty**: every element of a stack that empties leads down a well-founded
order. -/
theorem acc_of_drain {fuel : ℕ} {stack : List α} {out r : List β}
    (h : drain step fuel stack out = some r) {x : α} (hx : x ∈ stack) :
    Acc (fun y x => Leads step x y) x := by
  induction fuel generalizing stack out x with
  | zero =>
    cases stack with
    | nil => cases hx
    | cons y stack => cases h
  | succ fuel ih =>
    cases stack with
    | nil => cases hx
    | cons y stack =>
      rw [drain] at h
      rcases List.mem_cons.1 hx with rfl | hx
      · refine .intro _ fun z hz => ih h ?_
        exact List.mem_append_left _ (List.mem_reverse.2 hz)
      · exact ih h (List.mem_append_right _ hx)

theorem exists_drain_iff {stack : List α} {out : List β} :
    (∃ fuel r, drain step fuel stack out = some r) ↔
      ∀ x ∈ stack, Acc (fun y x => Leads step x y) x := by
  constructor
  · rintro ⟨fuel, r, h⟩ x hx
    exact acc_of_drain h hx
  · intro h
    obtain ⟨n, r, hr⟩ := exists_drain h out
    exact ⟨n, r, hr n le_rfl⟩

/-- A relation without cycles leads down a well-founded order where finitely many elements lead
on. -/
theorem acc_of_acyclic {r : α → α → Prop} (hfinite : {x | ∃ y, r x y}.Finite)
    (hacyclic : ∀ x, ¬ Relation.TransGen r x x) (x : α) : Acc (fun y x => r x y) x := by
  let S := {x // ∃ y, r x y}
  have : Finite S := hfinite
  let below : S → S → Prop := fun y x => Relation.TransGen r x.1 y.1
  have : Std.Irrefl below := ⟨fun x => hacyclic x.1⟩
  have : IsTrans S below := ⟨fun _ _ _ hxy hyz => hyz.trans hxy⟩
  have hwf : WellFounded below := Finite.wellFounded_of_trans_of_irrefl below
  have hacc : ∀ s : S, Acc (fun y x => r x y) s.1 := by
    intro s
    induction s using hwf.induction with
    | _ s ih =>
      refine .intro _ fun y hy => ?_
      by_cases hlead : ∃ z, r y z
      · exact ih ⟨y, hlead⟩ (.single hy)
      · exact .intro _ fun z hz => (hlead ⟨z, hz⟩).elim
  by_cases hlead : ∃ y, r x y
  · exact hacc ⟨x, hlead⟩
  · exact .intro _ fun y hy => (hlead ⟨y, hy⟩).elim

theorem acc_iff_of_map {γ : Type*} {r : α → α → Prop} {s : γ → γ → Prop} (f : α → γ)
    (hstep : ∀ {x y}, r x y → s (f x) (f y)) (hlift : ∀ {x c}, s (f x) c → ∃ y, r x y ∧ f y = c)
    {x : α} : Acc (fun y x => r x y) x ↔ Acc (fun y x => s x y) (f x) := by
  constructor
  · intro h
    induction h with
    | intro x _ ih =>
      refine .intro _ fun c hc => ?_
      obtain ⟨y, hy, rfl⟩ := hlift hc
      exact ih y hy
  · intro h
    generalize hc : f x = c at h
    induction h generalizing x with
    | intro c _ ih =>
      subst hc
      exact .intro _ fun y hy => ih _ (hstep hy) rfl

theorem not_transGen_of_acc {r : α → α → Prop} {x : α} (h : Acc (fun y x => r x y) x) :
    ¬ Relation.TransGen r x x := by
  induction h with
  | intro x _ ih =>
    intro hcycle
    obtain ⟨y, hxy, hyx⟩ := Relation.TransGen.head'_iff.1 hcycle
    exact ih y hxy (.tail' hyx hxy)

/-- **Where finitely many of the elements reached lead on**, a relation leads down a well-founded
order exactly if none of them leads back to itself. -/
theorem acc_iff_of_finite {r : α → α → Prop} {x : α}
    (hfinite : {y | Relation.ReflTransGen r x y ∧ ∃ z, r y z}.Finite) :
    Acc (fun y x => r x y) x ↔
      ∀ y, Relation.ReflTransGen r x y → ¬ Relation.TransGen r y y := by
  constructor
  · intro h y hxy
    refine not_transGen_of_acc ?_
    induction hxy with
    | refl => exact h
    | tail _ hyz ih => exact ih.inv hyz
  · intro hacyclic
    let r' : α → α → Prop := fun y z => Relation.ReflTransGen r x y ∧ r y z
    have hr : ∀ {y z}, Relation.TransGen r' y z → Relation.TransGen r y z :=
      fun h => h.lift id fun _ _ h => h.2
    have hr' : ∀ y, ¬ Relation.TransGen r' y y := by
      intro y hcycle
      obtain ⟨z, hyz, -⟩ := Relation.TransGen.head'_iff.1 hcycle
      exact hacyclic y hyz.1 (hr hcycle)
    have hdomain : {y | ∃ z, r' y z}.Finite := by
      refine hfinite.subset ?_
      rintro y ⟨z, hxy, hyz⟩
      exact ⟨hxy, z, hyz⟩
    have hacc := acc_of_acyclic hdomain hr' x
    have hlift : ∀ y, Acc (fun z y => r' y z) y → Relation.ReflTransGen r x y →
        Acc (fun z y => r y z) y := by
      intro y h
      induction h with
      | intro y _ ih =>
        intro hxy
        exact .intro _ fun z hyz => ih z ⟨hxy, hyz⟩ (hxy.tail hyz)
    exact hlift x hacc .refl

end Drain

/-! ## Visiting each element once -/

section Visit

variable {α : Type*} [DecidableEq α]

/-- The loop; the head of the list is the top of the stack. -/
def visit (next : α → List α) : ℕ → List α → List α → List α
  | _, [], visited => visited
  | 0, _ :: _, visited => visited
  | fuel + 1, x :: stack, visited =>
    if x ∈ visited then visit next fuel stack visited
    else visit next fuel ((next x).reverse ++ stack) (x :: visited)

/-- What the elements of `univ` that are not visited yet may still push. -/
def pending (next : α → List α) (univ visited : List α) : ℕ :=
  ((univ.filter (· ∉ visited)).map fun x => (next x).length).sum

variable {next : α → List α} {univ : List α}

theorem pending_cons (hu : univ.Nodup) {visited : List α} {x : α} (hx : x ∉ visited)
    (hnext : x ∉ univ → next x = []) :
    pending next univ (x :: visited) + (next x).length = pending next univ visited := by
  unfold pending
  induction univ with
  | nil => simp [hnext List.not_mem_nil]
  | cons y univ ih =>
    obtain ⟨hy, hu⟩ := List.nodup_cons.1 hu
    by_cases hxy : x = y
    · subst hxy
      have hrest : univ.filter (· ∉ x :: visited) = univ.filter (· ∉ visited) := by
        refine List.filter_congr fun z hz => ?_
        have hzx : z ≠ x := fun h => hy (h ▸ hz)
        simp [hzx]
      rw [List.filter_cons_of_neg (by simp), List.filter_cons_of_pos (by simpa using hx), hrest,
        List.map_cons, List.sum_cons, add_comm]
    · have hnext' : x ∉ univ → next x = [] := fun h => hnext (by simp [hxy, h])
      have := ih hu hnext'
      by_cases hv : y ∈ visited
      · rw [List.filter_cons_of_neg (by simp [hv]), List.filter_cons_of_neg (by simp [hv])]
        exact this
      · rw [List.filter_cons_of_pos (by simp [hv, Ne.symm hxy]),
          List.filter_cons_of_pos (by simp [hv]), List.map_cons, List.map_cons, List.sum_cons,
          List.sum_cons]
        omega

/-- **With enough passes** the visited elements hold the stack and all they lead to. -/
theorem visit_closed (hu : univ.Nodup) (hnext : ∀ x, x ∉ univ → next x = []) {fuel : ℕ}
    {stack visited : List α} (hfuel : stack.length + pending next univ visited ≤ fuel)
    (hinv : ∀ x ∈ visited, ∀ y ∈ next x, y ∈ visited ∨ y ∈ stack) :
    (∀ x ∈ stack, x ∈ visit next fuel stack visited) ∧
      (∀ x ∈ visited, x ∈ visit next fuel stack visited) ∧
      ∀ x ∈ visit next fuel stack visited, ∀ y ∈ next x, y ∈ visit next fuel stack visited := by
  induction fuel generalizing stack visited with
  | zero =>
    cases stack with
    | nil =>
      rw [visit]
      exact ⟨List.forall_mem_nil _, fun _ h => h,
        fun x hx y hy => (hinv x hx y hy).resolve_right List.not_mem_nil⟩
    | cons x stack => exact absurd hfuel (by simp)
  | succ fuel ih =>
    cases stack with
    | nil =>
      rw [visit]
      exact ⟨List.forall_mem_nil _, fun _ h => h,
        fun x hx y hy => (hinv x hx y hy).resolve_right List.not_mem_nil⟩
    | cons x stack =>
      rw [visit]
      rw [List.length_cons] at hfuel
      by_cases hx : x ∈ visited
      · rw [if_pos hx]
        obtain ⟨hstack, hvisited, hclosed⟩ := @ih stack visited (by omega) fun z hz y hy => by
          rcases hinv z hz y hy with h | h
          · exact Or.inl h
          · rcases List.mem_cons.1 h with rfl | h
            · exact Or.inl hx
            · exact Or.inr h
        exact ⟨List.forall_mem_cons.2 ⟨hvisited x hx, hstack⟩, hvisited, hclosed⟩
      · rw [if_neg hx]
        have hpending := pending_cons hu hx (hnext x)
        obtain ⟨hstack, hvisited, hclosed⟩ := @ih ((next x).reverse ++ stack) (x :: visited)
          (by rw [List.length_append, List.length_reverse]; omega) fun z hz y hy => by
            rw [List.mem_append, List.mem_reverse, List.mem_cons]
            rcases List.mem_cons.1 hz with rfl | hz
            · exact Or.inr (Or.inl hy)
            · rcases hinv z hz y hy with h | h
              · exact Or.inl (Or.inr h)
              · rcases List.mem_cons.1 h with rfl | h
                · exact Or.inl (Or.inl rfl)
                · exact Or.inr (Or.inr h)
        exact ⟨List.forall_mem_cons.2 ⟨hvisited x List.mem_cons_self,
            fun y hy => hstack y (List.mem_append_right _ hy)⟩,
          fun y hy => hvisited y (List.mem_cons_of_mem x hy), hclosed⟩

end Visit

end MlirAie.Lib
