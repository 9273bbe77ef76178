import Mathlib

/-!
# Grouping

* `unite`, `uniteAll`: a union-find by its roots; **`uniteAll_eq_iff`**: the roots are those of the
  classes that the pairs generate;
* `pack`: takes, in order, what agrees with everything taken so far; `exists_of_notMem_pack`,
  `pack_pairwise`: it is maximal; `pack_eq_append`, `pack_eq_self`: what comes first decides it.
-/

namespace MlirAie.Lib

variable {α : Type*}

/-! ## Classes -/

section Classes

variable [DecidableEq α]

/-- The root of the class of `a` is hung below that of `b`. -/
def unite (root : α → α) (a b : α) : α → α := fun x =>
  if root x = root a then root b else root x

def uniteAll (pairs : List (α × α)) : α → α :=
  pairs.foldl (fun root p => unite root p.1 p.2) id

theorem unite_eq_iff (root : α → α) (a b x y : α) :
    unite root a b x = unite root a b y ↔ root x = root y ∨
      (root x = root a ∧ root y = root b) ∨ (root x = root b ∧ root y = root a) := by
  unfold unite
  split_ifs with hx hy hy
  · simp [hx, hy]
  · simp only [hx, true_and]
    constructor
    · exact fun h => Or.inr (Or.inl h.symm)
    · rintro (h | h | h)
      · exact absurd h.symm hy
      · exact h.symm
      · exact absurd h.2 hy
  · simp only [hy, and_true]
    constructor
    · exact fun h => Or.inr (Or.inr h)
    · rintro (h | h | h)
      · exact absurd h hx
      · exact absurd h.1 hx
      · exact h
  · simp [hx, hy]

/-- **The roots are those of the generated classes.** -/
theorem uniteAll_eq_iff (pairs : List (α × α)) (x y : α) :
    uniteAll pairs x = uniteAll pairs y ↔ Relation.EqvGen (fun a b => (a, b) ∈ pairs) x y := by
  induction pairs using List.reverseRecOn generalizing x y with
  | nil =>
    refine ⟨fun h => ?_, fun h => ?_⟩
    · obtain rfl : x = y := h
      exact .refl _
    · induction h with
      | rel _ _ h => exact absurd h List.not_mem_nil
      | refl _ => rfl
      | symm _ _ _ ih => exact ih.symm
      | trans _ _ _ _ _ ih1 ih2 => exact ih1.trans ih2
  | append_singleton pairs p ih =>
    have hfold : uniteAll (pairs ++ [p]) = unite (uniteAll pairs) p.1 p.2 := by
      rw [uniteAll, List.foldl_append]
      rfl
    have hmono : ∀ a b, Relation.EqvGen (fun a b => (a, b) ∈ pairs) a b →
        Relation.EqvGen (fun a b => (a, b) ∈ pairs ++ [p]) a b := fun a b =>
      Relation.EqvGen.mono (fun _ _ h => List.mem_append_left _ h) a b
    have hlast : Relation.EqvGen (fun a b => (a, b) ∈ pairs ++ [p]) p.1 p.2 :=
      .rel _ _ (List.mem_append_right _ (List.mem_singleton_self p))
    rw [hfold]
    refine ⟨fun h => ?_, fun h => ?_⟩
    · rw [unite_eq_iff, ih, ih, ih, ih, ih] at h
      rcases h with h | ⟨hx, hy⟩ | ⟨hx, hy⟩
      · exact hmono _ _ h
      · exact (hmono _ _ hx).trans _ _ _ (hlast.trans _ _ _ ((hmono _ _ hy).symm _ _))
      · exact (hmono _ _ hx).trans _ _ _
          ((hlast.symm _ _).trans _ _ _ ((hmono _ _ hy).symm _ _))
    · induction h with
      | rel a b h =>
        rw [unite_eq_iff]
        rcases List.mem_append.1 h with h | h
        · exact Or.inl ((ih _ _).2 (.rel _ _ h))
        · obtain rfl := List.mem_singleton.1 h
          exact Or.inr (Or.inl ⟨rfl, rfl⟩)
      | refl _ => rfl
      | symm _ _ _ ih => exact ih.symm
      | trans _ _ _ _ _ ih1 ih2 => exact ih1.trans ih2

end Classes

/-! ## Packs -/

section Packs

variable (r : α → α → Prop) [DecidableRel r]

def pack (taken : List α) : List α → List α
  | [] => taken
  | a :: l => if ∀ b ∈ taken, r b a then pack (taken ++ [a]) l else pack taken l

attribute [local simp] pack

variable {r}

theorem pack_append (taken l l' : List α) :
    pack r taken (l ++ l') = pack r (pack r taken l) l' := by
  induction l generalizing taken with
  | nil => rfl
  | cons a l ih =>
    rw [List.cons_append, pack, pack]
    split_ifs
    · exact ih _
    · exact ih _

theorem pack_concat (l : List α) (a : α) :
    pack r [] (l ++ [a]) =
      if ∀ b ∈ pack r [] l, r b a then pack r [] l ++ [a] else pack r [] l := by
  rw [pack_append, pack]
  rfl

theorem pack_sublist (taken l : List α) : (pack r taken l).Sublist (taken ++ l) := by
  induction l generalizing taken with
  | nil => rw [pack, List.append_nil]
  | cons a l ih =>
    rw [pack]
    split_ifs
    · have h := ih (taken ++ [a])
      rwa [List.append_assoc, List.singleton_append] at h
    · exact (ih taken).trans ((List.sublist_cons_self a l).append_left taken)

theorem subset_pack (taken l : List α) : taken ⊆ pack r taken l := by
  induction l generalizing taken with
  | nil => exact List.Subset.refl _
  | cons a l ih =>
    rw [pack]
    split_ifs
    · exact fun b hb => ih _ (List.mem_append_left _ hb)
    · exact ih _

theorem pack_pairwise {taken : List α} (h : taken.Pairwise r) (l : List α) :
    (pack r taken l).Pairwise r := by
  induction l generalizing taken with
  | nil => exact h
  | cons a l ih =>
    rw [pack]
    split_ifs with hagree
    · refine ih (List.pairwise_append.2 ⟨h, List.pairwise_singleton r a, fun b hb c hc => ?_⟩)
      rw [List.mem_singleton.1 hc]
      exact hagree b hb
    · exact ih h

theorem exists_of_notMem_pack {taken l : List α} {a : α} (ha : a ∈ l)
    (hout : a ∉ pack r taken l) : ∃ b ∈ pack r taken l, ¬ r b a := by
  induction l generalizing taken with
  | nil => exact absurd ha List.not_mem_nil
  | cons c l ih =>
    rw [pack] at hout ⊢
    split_ifs at hout ⊢ with hagree
    · rcases List.mem_cons.1 ha with rfl | ha
      · exact absurd (subset_pack _ l (List.mem_append_right _ (List.mem_singleton_self a))) hout
      · exact ih ha hout
    · rcases List.mem_cons.1 ha with rfl | ha
      · push Not at hagree
        obtain ⟨b, hb, hdis⟩ := hagree
        exact ⟨b, subset_pack _ l hb, hdis⟩
      · exact ih ha hout

theorem pack_eq_append {taken l : List α} (h : (taken ++ l).Pairwise r) :
    pack r taken l = taken ++ l := by
  induction l generalizing taken with
  | nil => rw [pack, List.append_nil]
  | cons a l ih =>
    have hagree : ∀ b ∈ taken, r b a := fun b hb =>
      (List.pairwise_append.1 h).2.2 b hb a List.mem_cons_self
    rw [pack, if_pos hagree, ih, List.append_assoc, List.singleton_append]
    rwa [List.append_assoc, List.singleton_append]

theorem pack_nil_eq_self {l : List α} (h : l.Pairwise r) : pack r [] l = l :=
  pack_eq_append h

theorem pack_eq_self {taken l : List α} (h : ∀ a ∈ l, ∃ b ∈ taken, ¬ r b a) :
    pack r taken l = taken := by
  induction l with
  | nil => rfl
  | cons a l ih =>
    have hdis : ¬ ∀ b ∈ taken, r b a := fun hall => by
      obtain ⟨b, hb, hb'⟩ := h a List.mem_cons_self
      exact hb' (hall b hb)
    rw [pack, if_neg hdis, ih fun c hc => h c (List.mem_cons_of_mem _ hc)]

end Packs

end MlirAie.Lib
