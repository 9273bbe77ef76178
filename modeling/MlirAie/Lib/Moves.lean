import Mathlib

/-!
# Moving elements of a list

An element is taken out of a list and put back after, or before, another. Elements put one after the
other behind an anchor end up there in that order, whatever their places were.

* `moveAfter`, `moveBefore`: one move;
* `gather`: moves one after another, each behind the last; **`gather_append`**, `gather_perm`;
* **`filter_mergeSort`**: a stable sort keeps what is in order.
-/

namespace MlirAie.Lib

variable {α : Type*} [DecidableEq α] {x a : α} {l l' w : List α}

/-- Move `x` to the place after `a`. -/
def moveAfter (x a : α) (l : List α) : List α :=
  (l.filter (· ≠ x)).flatMap fun y => if y = a then [y, x] else [y]

/-- Move `x` to the place before `a`. -/
def moveBefore (x a : α) (l : List α) : List α :=
  (l.filter (· ≠ x)).flatMap fun y => if y = a then [x, y] else [y]

theorem flatMap_of_not_mem {f : α → List α} (h : a ∉ l) :
    (l.flatMap fun y => if y = a then f y else [y]) = l := by
  induction l with
  | nil => rfl
  | cons y l ih =>
    rw [List.mem_cons, not_or] at h
    rw [List.flatMap_cons, if_neg (Ne.symm h.1), ih h.2, List.singleton_append]

theorem flatMap_append_cons {f : α → List α} (ha : a ∉ l) (ha' : a ∉ l') (hx : x ≠ a) :
    (((l ++ a :: l').filter (· ≠ x)).flatMap fun y => if y = a then f y else [y]) =
      l.filter (· ≠ x) ++ f a ++ l'.filter (· ≠ x) := by
  rw [List.filter_append, List.filter_cons_of_pos (by simpa using hx.symm), List.flatMap_append,
    List.flatMap_cons, if_pos rfl, flatMap_of_not_mem (fun h => ha (List.mem_of_mem_filter h)),
    flatMap_of_not_mem (fun h => ha' (List.mem_of_mem_filter h)), List.append_assoc]

theorem moveAfter_append (ha : a ∉ l) (ha' : a ∉ l') (hx : x ≠ a) :
    moveAfter x a (l ++ a :: l') = l.filter (· ≠ x) ++ a :: x :: l'.filter (· ≠ x) := by
  rw [moveAfter, flatMap_append_cons ha ha' hx, List.append_assoc]
  rfl

theorem moveBefore_append (ha : a ∉ l) (ha' : a ∉ l') (hx : x ≠ a) :
    moveBefore x a (l ++ a :: l') = l.filter (· ≠ x) ++ x :: a :: l'.filter (· ≠ x) := by
  rw [moveBefore, flatMap_append_cons ha ha' hx, List.append_assoc]
  rfl

/-- Move the elements of `w` behind `a`, one after the other. -/
def gather (a : α) (l : List α) : List α → List α
  | [] => l
  | x :: w => gather x (moveAfter x a l) w

/-- **Elements put behind an anchor** end up there in their order. -/
theorem gather_append (ha : a ∉ l) (ha' : a ∉ l') (hw : (a :: w).Nodup) :
    gather a (l ++ a :: l') w = l.filter (· ∉ w) ++ a :: (w ++ l'.filter (· ∉ w)) := by
  induction w generalizing a l l' with
  | nil => simp [gather]
  | cons x w ih =>
    rw [List.nodup_cons, List.mem_cons, not_or] at hw
    have hx : x ∉ l.filter (· ≠ x) ++ [a] := by simp [Ne.symm hw.1.1]
    have hx' : x ∉ l'.filter (· ≠ x) := by simp
    have haw : a ∉ w := hw.1.2
    rw [gather, moveAfter_append ha ha' (Ne.symm hw.1.1),
      show ∀ m : List α, l.filter (· ≠ x) ++ a :: x :: m = (l.filter (· ≠ x) ++ [a]) ++ x :: m by
        simp, ih hx hx' hw.2]
    simp [List.filter_append, List.filter_filter, haw, not_or, Bool.and_comm]

/-- The elements moved are those of the list. -/
theorem gather_perm (hl : (l ++ a :: l').Nodup) (hw : (a :: w).Nodup)
    (hmem : ∀ x ∈ w, x ∈ l ++ l') :
    (l.filter (· ∉ w) ++ a :: (w ++ l'.filter (· ∉ w))).Perm (l ++ a :: l') := by
  have hll : (l ++ l').Nodup := (List.nodup_middle.1 hl).of_cons
  refine List.perm_middle.trans (.trans (.cons a ?_) List.perm_middle.symm)
  refine .trans (List.perm_append_comm_assoc _ _ _) ?_
  rw [← List.filter_append]
  have hsplit := List.filter_append_perm (· ∈ w) (l ++ l')
  simp only [← decide_not] at hsplit
  refine .trans (.append_right _ ?_) hsplit
  refine (List.perm_ext_iff_of_nodup hw.of_cons (hll.filter _)).2 fun x => ?_
  rw [List.mem_filter, decide_eq_true_eq]
  exact ⟨fun hx => ⟨hmem x hx, hx⟩, fun hx => hx.2⟩

/-- **A stable sort keeps what is in order.** -/
theorem filter_mergeSort {β : Type*} {le : β → β → Bool} {p : β → Bool} {xs : List β}
    (trans : ∀ a b c, le a b → le b c → le a c) (total : ∀ a b, le a b || le b a)
    (hsorted : (xs.filter p).Pairwise fun a b => le a b) :
    (xs.mergeSort le).filter p = xs.filter p := by
  have hsub := (List.sublist_mergeSort trans total hsorted List.filter_sublist).filter p
  rw [List.filter_filter] at hsub
  simp only [Bool.and_self] at hsub
  exact (hsub.eq_of_length ((List.mergeSort_perm xs le).filter p).length_eq.symm).symm

end MlirAie.Lib
