import Mathlib

/-!
# Walks of nested loops

A loop nest visits the sums of one displacement per loop, the first loop fastest. The lists of
displacements under `nest` form a monoid; a nest is a product in it, so loops are merged, split,
dropped and cut by its laws.

* `nest`: a fast walk inside a slow one;
* `walk`: a nest of loops, innermost first;
* **`nest_run_run`**: a loop whose step is the extent of the loop inside it continues it.
-/

namespace MlirAie.Lib

variable {R : Type*}

section AddCommMonoid

variable [AddCommMonoid R]

/-- The walk `fast` once for every element of `slow`, displaced by it. -/
@[grind =] def nest (fast slow : List R) : List R := slow.flatMap fun b => fast.map fun a => b + a

/-- A nest of loops, given by their displacements, innermost first. -/
def walk : List (List R) → List R
  | [] => [0]
  | l :: ls => nest l (walk ls)

@[simp] theorem nest_nil (l : List R) : nest l [] = [] := rfl

theorem nest_cons (l : List R) (b : R) (m : List R) :
    nest l (b :: m) = l.map (b + ·) ++ nest l m := rfl

@[simp] theorem zero_nest (l : List R) : nest [0] l = l := by
  simp [nest]

@[simp] theorem nest_zero (l : List R) : nest l [0] = l := by
  simp [nest]

/-- A loop of one iteration displaces the walk. -/
theorem nest_singleton (l : List R) (c : R) : nest l [c] = l.map (c + ·) := by
  simp [nest]

theorem singleton_nest (c : R) (l : List R) : nest [c] l = l.map (· + c) := by
  induction l with
  | nil => rfl
  | cons b l ih => rw [nest_cons, ih]; rfl

theorem nest_append (l m n : List R) : nest l (m ++ n) = nest l m ++ nest l n := by
  simp [nest]

theorem nest_map_add (l m : List R) (c : R) : nest l (m.map (c + ·)) = (nest l m).map (c + ·) := by
  simp [nest, List.map_flatMap, List.flatMap_map, Function.comp_def, add_assoc]

theorem nest_assoc (l m n : List R) : nest (nest l m) n = nest l (nest m n) := by
  induction n with
  | nil => rfl
  | cons c n ih => rw [nest_cons, nest_cons, nest_append, nest_map_add, ih]

theorem map_add_nest (l m : List R) (c : R) : nest (l.map (c + ·)) m = (nest l m).map (c + ·) := by
  induction m with
  | nil => rfl
  | cons b m ih =>
    rw [nest_cons, nest_cons, ih, List.map_append, List.map_map, List.map_map]
    congr 1
    refine List.map_congr_left fun a _ => ?_
    simp only [Function.comp_apply]
    abel

theorem walk_append (ls ms : List (List R)) : walk (ls ++ ms) = nest (walk ls) (walk ms) := by
  induction ls with
  | nil => simp [walk]
  | cons l ls ih => rw [List.cons_append, walk, walk, ih, nest_assoc]

theorem nest_flatMap {α : Type*} (l : List R) (xs : List α) (f : α → List R) :
    nest l (xs.flatMap f) = xs.flatMap fun x => nest l (f x) := by
  induction xs with
  | nil => rfl
  | cons x xs ih => rw [List.flatMap_cons, nest_append, ih, List.flatMap_cons]

end AddCommMonoid

section CommRing

variable [CommRing R]

/-- `n` displacements from `start` on, `step` apart. -/
@[grind =]
def run (start step : R) (n : ℕ) : List R := (List.range n).map fun (i : ℕ) => start + i * step

@[simp] theorem run_zero (start step : R) : run start step 0 = [] := rfl

@[simp] theorem run_one (start step : R) : run start step 1 = [start] := by
  simp [run]

/-- A loop cut in two. -/
theorem run_add (start step : R) (m n : ℕ) :
    run start step (m + n) = run start step m ++ run (start + m * step) step n := by
  simp only [run, List.range_add, List.map_append, List.map_map]
  congr 1
  refine List.map_congr_left fun i _ => ?_
  simp only [Function.comp_apply, Nat.cast_add]
  ring

theorem run_map_add (start step c : R) (n : ℕ) :
    (run start step n).map (c + ·) = run (c + start) step n := by
  simp [run, Function.comp_def, add_assoc]

/-- **A loop whose step is the extent of the loop inside it continues it.** -/
theorem nest_run_run (start start' step : R) (m n : ℕ) :
    nest (run start step m) (run start' (m * step) n) = run (start + start') step (m * n) := by
  induction n with
  | zero => simp
  | succ n ih =>
    rw [run_add, nest_append, ih, run_one, nest_singleton, run_map_add, Nat.mul_succ, run_add]
    congr 2
    push_cast
    ring

/-- **A loop cut into chunks**, the last one possibly shorter. -/
theorem run_flatMap_chunks (start step : R) (chunk n k : ℕ) :
    ((List.range k).flatMap fun i => run (start + (i * chunk : ℕ) * step) step
      (min chunk (n - i * chunk))) = run start step (min (k * chunk) n) := by
  induction k with
  | zero => simp
  | succ k ih =>
    have hsplit : min ((k + 1) * chunk) n =
        min (k * chunk) n + min chunk (n - k * chunk) := by
      rw [Nat.succ_mul]
      omega
    rw [List.range_succ, List.flatMap_append, ih, List.flatMap_singleton, hsplit, run_add]
    rcases Nat.le_total n (k * chunk) with hle | hle
    · rw [Nat.sub_eq_zero_of_le hle, Nat.min_zero, run_zero, run_zero]
    · rw [min_eq_left hle]

end CommRing

/-! ## Loops that collect -/

theorem flatMap_of_foldlM {α β : Type*} {step : List β → α → Option (List β)} {xs : List α}
    (stream : β → List R) (ref : α → List R)
    (hstep : ∀ acc, ∀ x ∈ xs, ∀ r, step acc x = some r →
      r.flatMap stream = acc.flatMap stream ++ ref x)
    {acc r : List β} (h : xs.foldlM step acc = some r) :
    r.flatMap stream = acc.flatMap stream ++ xs.flatMap ref := by
  induction xs generalizing acc with
  | nil =>
    cases h
    simp
  | cons x xs ih =>
    rw [List.foldlM_cons] at h
    obtain ⟨acc', hacc', h⟩ := Option.bind_eq_some_iff.1 h
    rw [ih (fun acc y hy => hstep acc y (List.mem_cons_of_mem _ hy)) h,
      hstep acc x List.mem_cons_self _ hacc', List.flatMap_cons, List.append_assoc]

end MlirAie.Lib
