import Mathlib

/-!
# Extremes of lists and sets

* `track`: the extreme so far, with the number of times it occurred; `IsExtreme`: that of a list;
* **`isExtreme_foldl`**: reading a list from a bound, or from its own first number, finds it;
* `IsLowest`: the elements of `T` are the lowest of `F`. Whoever always takes the least element that
  is left holds them: `IsLowest.insert`, **`IsLowest.sdiff`**, **`IsLowest.mem_iff`**.
-/

namespace MlirAie.Lib

/-! ## Bounds by folding -/

section Bounds

variable {α : Type*} [LinearOrder α]

theorem foldl_min_le (a : α) (l : List α) : l.foldl min a ≤ a ∧ ∀ x ∈ l, l.foldl min a ≤ x := by
  induction l generalizing a with
  | nil => exact ⟨le_rfl, by simp⟩
  | cons b l ih =>
    obtain ⟨ha, hl⟩ := ih (min a b)
    refine ⟨ha.trans (min_le_left _ _), fun x hx => ?_⟩
    rcases List.mem_cons.1 hx with rfl | hx
    · exact ha.trans (min_le_right _ _)
    · exact hl x hx

theorem foldl_min_mem (a : α) (l : List α) : l.foldl min a ∈ a :: l := by
  induction l generalizing a with
  | nil => exact List.mem_cons_self
  | cons b l ih =>
    rcases List.mem_cons.1 (ih (min a b)) with h | h
    · rw [List.foldl_cons, h]
      rcases min_choice a b with h | h <;> rw [h] <;> simp
    · exact List.mem_cons_of_mem a (List.mem_cons_of_mem b h)

theorem le_foldl_max (a : α) (l : List α) : a ≤ l.foldl max a ∧ ∀ x ∈ l, x ≤ l.foldl max a := by
  induction l generalizing a with
  | nil => exact ⟨le_rfl, by simp⟩
  | cons b l ih =>
    obtain ⟨ha, hl⟩ := ih (max a b)
    refine ⟨(le_max_left _ _).trans ha, fun x hx => ?_⟩
    rcases List.mem_cons.1 hx with rfl | hx
    · exact (le_max_right _ _).trans ha
    · exact hl x hx

theorem foldl_max_mem (a : α) (l : List α) : l.foldl max a ∈ a :: l := by
  induction l generalizing a with
  | nil => exact List.mem_cons_self
  | cons b l ih =>
    rcases List.mem_cons.1 (ih (max a b)) with h | h
    · rw [List.foldl_cons, h]
      rcases max_choice a b with h | h <;> rw [h] <;> simp
    · exact List.mem_cons_of_mem a (List.mem_cons_of_mem b h)

end Bounds

/-! ## Running extremes -/

section Running

variable {α : Type*} (better : α → α → Prop) [DecidableRel better] [DecidableEq α]

/-- The best number so far and its occurrences, after one more number. -/
def track (s : α × ℤ) (x : α) : α × ℤ :=
  if better x s.1 then (x, 1) else if x = s.1 then (s.1, s.2 + 1) else s

omit [DecidableRel better] in
/-- `s` holds the best number of the list and how often it occurs. -/
structure IsExtreme (l : List α) (s : α × ℤ) : Prop where
  mem : s.1 ∈ l
  best : ∀ x ∈ l, ¬better x s.1
  count : s.2 = l.count s.1

variable {better} {l : List α} {s : α × ℤ}

omit [DecidableRel better] in
theorem IsExtreme.unique (hconn : ∀ x y, ¬better x y → ¬better y x → x = y) {s' : α × ℤ}
    (h : IsExtreme better l s) (h' : IsExtreme better l s') : s = s' := by
  have heq : s.1 = s'.1 := hconn _ _ (h'.best _ h.mem) (h.best _ h'.mem)
  refine Prod.ext heq ?_
  rw [h.count, h'.count, heq]

theorem IsExtreme.track (htrans : ∀ x y z, better x y → better y z → better x z)
    (hirrefl : ∀ x, ¬better x x) (h : IsExtreme better l s) (x : α) :
    IsExtreme better (l ++ [x]) (track better s x) := by
  unfold Lib.track
  by_cases hbetter : better x s.1
  · have hnot : x ∉ l := fun hx => h.best x hx hbetter
    rw [if_pos hbetter]
    refine ⟨by simp, fun y hy => ?_, ?_⟩
    · rcases List.mem_append.1 hy with hy | hy
      · exact fun hyx => h.best y hy (htrans _ _ _ hyx hbetter)
      · rw [List.mem_singleton.1 hy]
        exact hirrefl x
    · rw [List.count_append, List.count_eq_zero_of_not_mem hnot]
      simp
  · rw [if_neg hbetter]
    have hbest : ∀ y ∈ l ++ [x], ¬better y s.1 := by
      intro y hy
      rcases List.mem_append.1 hy with hy | hy
      · exact h.best y hy
      · rwa [List.mem_singleton.1 hy]
    by_cases hx : x = s.1
    · rw [if_pos hx]
      refine ⟨List.mem_append_left _ h.mem, hbest, ?_⟩
      show s.2 + 1 = _
      rw [List.count_append, h.count, hx]
      simp
    · rw [if_neg hx]
      refine ⟨List.mem_append_left _ h.mem, hbest, ?_⟩
      rw [List.count_append, h.count, List.count_cons_of_ne hx]
      simp

theorem IsExtreme.foldl (htrans : ∀ x y z, better x y → better y z → better x z)
    (hirrefl : ∀ x, ¬better x x) (l' : List α) :
    ∀ {l : List α} {s : α × ℤ}, IsExtreme better l s →
      IsExtreme better (l ++ l') (l'.foldl (Lib.track better) s) := by
  induction l' with
  | nil =>
    intro l s h
    rwa [List.append_nil]
  | cons x l' ih =>
    intro l s h
    have hstep := ih (h.track htrans hirrefl x)
    rwa [List.append_assoc] at hstep

/-- **A list is read** from its first number, or from a bound that nothing in it is worse than. -/
theorem isExtreme_foldl (htrans : ∀ x y z, better x y → better y z → better x z)
    (hirrefl : ∀ x, ¬better x x) (x : α) (l : List α) :
    IsExtreme better (x :: l) (l.foldl (track better) (x, 1)) ∧
      ∀ bound, better x bound ∨ x = bound →
        IsExtreme better (x :: l) ((x :: l).foldl (track better) (bound, 0)) := by
  have hfirst : IsExtreme better [x] (x, 1) := ⟨by simp, by simpa using hirrefl x, by simp⟩
  refine ⟨hfirst.foldl htrans hirrefl l, fun bound hbound => ?_⟩
  have hstart : track better (bound, 0) x = (x, 1) := by
    unfold track
    rcases hbound with hbetter | rfl
    · rw [if_pos hbetter]
    · rw [if_neg (hirrefl x), if_pos rfl, zero_add]
  rw [List.foldl_cons, hstart]
  exact hfirst.foldl htrans hirrefl l

end Running

/-! ## The lowest elements of a set -/

section Lowest

variable {α : Type*} [LinearOrder α]

/-- `T` holds the lowest elements of `F`. -/
structure IsLowest (F T : Finset α) : Prop where
  sub : T ⊆ F
  down : ∀ x ∈ F, ∀ t ∈ T, x < t → x ∈ T

namespace IsLowest

variable {F T : Finset α}

theorem empty (F : Finset α) : IsLowest F ∅ :=
  ⟨Finset.empty_subset F, fun _ _ t ht => absurd ht (Finset.notMem_empty t)⟩

/-- The least element of the others is taken. -/
theorem insert (h : IsLowest F T) {x : α} (hx : x ∈ F) (hleast : ∀ y ∈ F, y < x → y ∈ T) :
    IsLowest F (Insert.insert x T) := by
  refine ⟨Finset.insert_subset hx h.sub, fun y hy t ht hlt => ?_⟩
  rcases Finset.mem_insert.1 ht with rfl | ht
  · exact Finset.mem_insert_of_mem (hleast y hy hlt)
  · exact Finset.mem_insert_of_mem (h.down y hy t ht hlt)

/-- Elements that are not taken leave the set. -/
theorem sdiff (h : IsLowest F T) {P : Finset α} (hdisjoint : Disjoint P T) :
    IsLowest (F \ P) T := by
  refine ⟨fun t ht => Finset.mem_sdiff.2 ⟨h.sub ht, fun hP => ?_⟩, fun x hx t ht hlt => ?_⟩
  · exact Finset.disjoint_left.1 hdisjoint hP ht
  · exact h.down x (Finset.mem_sdiff.1 hx).1 t ht hlt

/-- **An element is taken** where fewer elements than are taken lie below it. -/
theorem mem_iff (h : IsLowest F T) {x : α} (hx : x ∈ F) :
    x ∈ T ↔ (F.filter (· < x)).card < T.card := by
  constructor
  · intro hmem
    refine (Finset.card_le_card fun y hy => ?_).trans_lt (Finset.card_erase_lt_of_mem hmem)
    obtain ⟨hyF, hlt⟩ := Finset.mem_filter.1 hy
    exact Finset.mem_erase.2 ⟨hlt.ne, h.down y hyF x hmem hlt⟩
  · intro hcard
    by_contra hmem
    refine absurd (Finset.card_le_card fun t ht => ?_) hcard.not_ge
    refine Finset.mem_filter.2 ⟨h.sub ht, lt_of_le_of_ne (le_of_not_gt fun hlt => ?_) ?_⟩
    · exact hmem (h.down x hx t ht hlt)
    · rintro rfl
      exact hmem ht

end IsLowest

end Lowest

end MlirAie.Lib
