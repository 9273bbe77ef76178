import MlirAie.Lib.While

/-!
# Passes until nothing changes

A pass visits the elements of a list in order and tells by a flag whether it changed the state; the
passes go on until one changes nothing, or the state asks to stop.

* `passes`: the loop;
* **`passes_run`**: at its end nothing is left to do at any element;
* **`passes_halts`**: it ends where no infinite sequence of steps exists.
-/

namespace MlirAie.Lib

open Relation

variable {σ α : Type*} {R : σ → σ → Prop} {Q : α → σ → Prop} {P : σ → Prop}

/-- A visit finds nothing to do, or makes steps and raises the flag. -/
def Visits (R : σ → σ → Prop) (idle : σ → Prop) (r r' : σ × Bool) : Prop :=
  (r' = r ∧ idle r.1) ∨ (r'.2 = true ∧ TransGen R r.1 r'.1)

theorem Visits.idle {idle : σ → Prop} {r : σ × Bool} (h : idle r.1) : Visits R idle r r :=
  Or.inl ⟨rfl, h⟩

theorem Visits.single {idle : σ → Prop} {r : σ × Bool} {s : σ} (h : R r.1 s) :
    Visits R idle r (s, true) := Or.inr ⟨rfl, TransGen.single h⟩

theorem Visits.reflTransGen {idle : σ → Prop} {r r' : σ × Bool} (h : Visits R idle r r') :
    ReflTransGen R r.1 r'.1 := by
  rcases h with ⟨rfl, _⟩ | ⟨_, h⟩
  · exact ReflTransGen.refl
  · exact h.to_reflTransGen

theorem keeps_reflTransGen (hP : ∀ s s', P s → R s s' → P s') {s s' : σ}
    (h : ReflTransGen R s s') (hs : P s) : P s' := by
  induction h with
  | refl => exact hs
  | tail _ hstep ih => exact hP _ _ ih hstep

/-- Visiting a list, where the steps keep what the visits need. -/
theorem visits_foldl {f : σ × Bool → α → σ × Bool} (hP : ∀ s s', P s → R s s' → P s')
    (l : List α) (hf : ∀ x ∈ l, ∀ r : σ × Bool, P r.1 → Visits R (Q x) r (f r x))
    (r : σ × Bool) (hr : P r.1) : Visits R (fun s => ∀ x ∈ l, Q x s) r (l.foldl f r) := by
  induction l generalizing r with
  | nil => exact Visits.idle (List.forall_mem_nil _)
  | cons x l ih =>
    rw [List.foldl_cons]
    have hx := hf x List.mem_cons_self r hr
    have hl := ih (fun y hy => hf y (List.mem_cons_of_mem x hy)) (f r x)
      (keeps_reflTransGen hP hx.reflTransGen hr)
    rcases hx with ⟨heq, hidle⟩ | ⟨hflag, hsteps⟩
    · rw [heq] at hl ⊢
      rcases hl with ⟨heq', hidle'⟩ | hl
      · exact Or.inl ⟨heq', List.forall_mem_cons.2 ⟨hidle, hidle'⟩⟩
      · exact Or.inr hl
    · refine Or.inr ⟨?_, ?_⟩
      · rcases hl with ⟨heq', _⟩ | ⟨hflag', _⟩
        · rw [heq', hflag]
        · exact hflag'
      · exact hsteps.trans_left hl.reflTransGen

def passes (stop : σ → Bool) (f : σ × Bool → α → σ × Bool) (l : List α) :
    Loop (σ × Bool) Empty where
  guard r := r.2 && !stop r.1
  body r := .ok (l.foldl f (r.1, false))

section

variable {stop : σ → Bool} {f : σ × Bool → α → σ × Bool} {l : List α}

theorem passes_exit {r : σ × Bool} (h : r.2 = false ∨ stop r.1 = true) :
    (passes stop f l).guard r = false := by
  show (r.2 && !stop r.1) = false
  rcases h with h | h
  · rw [h, Bool.false_and]
  · rw [h, Bool.not_true, Bool.and_false]

theorem passes_steps {s : σ} {b : Bool} (hb : b = true) (h : stop s = false) :
    (passes stop f l).Steps (s, b) (l.foldl f (s, false)) := by
  refine ⟨?_, rfl⟩
  show (b && !stop s) = true
  rw [hb, h]
  rfl

/-- **When the passes end**, they made steps, and nothing is left to do unless they were stopped. -/
theorem passes_run (hf : ∀ x ∈ l, ∀ r : σ × Bool, Visits R (Q x) r (f r x)) {fuel : ℕ} {s s' : σ}
    {b b' : Bool} (hb : b = true ∨ ∀ x ∈ l, Q x s)
    (h : (passes stop f l).run fuel (s, b) = some (.ok (s', b'))) :
    ReflTransGen R s s' ∧ (stop s' = true ∨ ∀ x ∈ l, Q x s') := by
  induction fuel generalizing s b with
  | zero => cases h
  | succ fuel ih =>
    have hexit (hg : (passes stop f l).guard (s, b) = false) : s = s' := by
      rw [Loop.run_exit hg] at h
      exact congrArg Prod.fst (Except.ok.inj (Option.some.inj h))
    cases hstop : stop s with
    | true =>
      obtain rfl := hexit (passes_exit (Or.inr hstop))
      exact ⟨ReflTransGen.refl, Or.inl hstop⟩
    | false =>
      cases b with
      | false =>
        obtain rfl := hexit (passes_exit (Or.inl rfl))
        exact ⟨ReflTransGen.refl, Or.inr (hb.resolve_left (by simp))⟩
      | true =>
        rw [Loop.run_step (passes_steps rfl hstop)] at h
        have hpass := @visits_foldl _ _ R Q (fun _ => True) f (fun _ _ _ _ => trivial) l
          (fun x hx r _ => hf x hx r) (s, false) trivial
        rcases hpass with ⟨heq, hidle⟩ | ⟨hflag, hsteps⟩
        · rw [heq] at h
          exact ih (Or.inr hidle) h
        · obtain ⟨hrest, hend⟩ := ih (Or.inl hflag) h
          exact ⟨hsteps.to_reflTransGen.trans hrest, hend⟩

/-- **The passes end** where every sequence of steps does. -/
theorem passes_halts (hwf : WellFounded fun s' s => R s s')
    (hf : ∀ x ∈ l, ∀ r : σ × Bool, Visits R (Q x) r (f r x)) (s : σ) (b : Bool) :
    ∃ fuel r, (passes stop f l).run fuel (s, b) = some (.ok r) := by
  have hwf' : WellFounded (TransGen fun s' s => R s s') := hwf.transGen
  induction s using hwf'.induction generalizing b with
  | _ s ih =>
    by_cases hexit : b = false ∨ stop s = true
    · exact ⟨1, _, Loop.run_exit (passes_exit hexit) 0⟩
    · obtain ⟨hb, hstop⟩ := not_or.1 hexit
      have hstep := @passes_steps _ _ stop f l s b (Bool.eq_true_of_not_eq_false hb)
        (Bool.eq_false_of_not_eq_true hstop)
      have hpass := @visits_foldl _ _ R Q (fun _ => True) f (fun _ _ _ _ => trivial) l
        (fun x hx r _ => hf x hx r) (s, false) trivial
      rcases hpass with ⟨heq, _⟩ | ⟨_, hsteps⟩
      · rw [heq] at hstep
        exact ⟨2, _, (Loop.run_step hstep 1).trans (Loop.run_exit (passes_exit (Or.inl rfl)) 0)⟩
      · obtain ⟨fuel, r, hr⟩ := ih (l.foldl f (s, false)).1 (transGen_swap.1 hsteps)
          (l.foldl f (s, false)).2
        exact ⟨fuel + 1, r, (Loop.run_step hstep fuel).trans hr⟩

end

end MlirAie.Lib
