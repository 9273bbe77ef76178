import Mathlib

/-!
# Numbers and separators in texts

* `text_split`: a text is told from what follows a separator it does not contain;
* `not_mem_toString_nat`, `not_mem_toString_int`: the letters a number does not contain.
-/

namespace MlirAie.Lib

theorem not_mem_toString_nat {c : Char} (hc : c.isDigit = false) (n : ℕ) :
    c ∉ (toString n).toList := by
  intro h
  have h' : c ∈ Nat.toDigits 10 n := by rwa [← Nat.toList_repr]
  rw [Nat.isDigit_of_mem_toDigits (by decide) (by decide) h'] at hc
  cases hc

theorem not_mem_toString_int {c : Char} (hc : c.isDigit = false) (hm : c ≠ '-') (a : ℤ) :
    c ∉ (toString a).toList := by
  cases a with
  | ofNat n => exact not_mem_toString_nat hc n
  | negSucc n =>
    have : (toString (Int.negSucc n)).toList = '-' :: (toString (n + 1)).toList := by
      show ("-" ++ (n + 1).repr).toList = _
      rw [String.toList_append]
      rfl
    rw [this, List.mem_cons, not_or]
    exact ⟨hm, not_mem_toString_nat hc (n + 1)⟩

theorem toString_int_ne_nil (a : ℤ) : (toString a).toList ≠ [] := by
  cases a with
  | ofNat n =>
    show (Nat.repr n).toList ≠ []
    rw [Nat.toList_repr]
    exact Nat.toDigits_ne_nil
  | negSucc n =>
    show ("-" ++ (n + 1).repr).toList ≠ []
    rw [String.toList_append]
    simp

theorem cons_split {α : Type} {c : α} {x y s t : List α} (hx : c ∉ x) (hy : c ∉ y)
    (h : x ++ c :: s = y ++ c :: t) : x = y ∧ s = t := by
  induction x generalizing y with
  | nil =>
    cases y with
    | nil => exact ⟨rfl, (List.cons.inj h).2⟩
    | cons b y => exact absurd ((List.cons.inj h).1 ▸ List.mem_cons_self) hy
  | cons a x ih =>
    cases y with
    | nil => exact absurd ((List.cons.inj h).1 ▸ List.mem_cons_self) hx
    | cons b y =>
      obtain ⟨hab, h⟩ := List.cons.inj h
      obtain ⟨hxy, hst⟩ := ih (fun h => hx (List.mem_cons_of_mem a h))
        (fun h => hy (List.mem_cons_of_mem b h)) h
      exact ⟨by rw [hab, hxy], hst⟩

/-- Texts up to a separator that they do not contain are told by what they are followed by. -/
theorem text_split {a b s t : String} (sep : String) {c : Char} {cs : List Char}
    (hsep : sep.toList = c :: cs) (ha : c ∉ a.toList) (hb : c ∉ b.toList)
    (h : a ++ (sep ++ s) = b ++ (sep ++ t)) : a = b ∧ s = t := by
  have h' := congrArg String.toList h
  simp only [String.toList_append, hsep, List.cons_append] at h'
  obtain ⟨h₁, h₂⟩ := cons_split ha hb h'
  exact ⟨String.toList_inj.1 h₁, String.toList_inj.1 (List.append_cancel_left h₂)⟩

end MlirAie.Lib
