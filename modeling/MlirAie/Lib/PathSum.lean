import Mathlib

/-!
# Paths of a relation

A path out of a set crosses its border. A path that may stop where it is allowed to has a sum: the
weights of all its elements.

* `exists_crossing`: where a path crosses; **`card_le_of_exclusive`**: places for each of some
  users;
* `Largest`: the greatest element of a set of sums, or a mark for none;
* **`isGreatest_pathSum`**, **`largest_pathSum`**: the largest sum from those of the successors.
-/

namespace MlirAie.Lib

open Relation

/-! ## Crossing a cut -/

section Crossing

variable {α : Type*} {r : α → α → Prop} {s : Set α} {a b : α}

/-- **A path out of a set** leaves it at some step. -/
theorem exists_crossing (h : Relation.ReflTransGen r a b) (ha : a ∈ s) (hb : b ∉ s) :
    ∃ x y, Relation.ReflTransGen r a x ∧ r x y ∧ x ∈ s ∧ y ∉ s := by
  induction h with
  | refl => exact absurd ha hb
  | @tail x y hx hxy ih =>
    by_cases hmem : x ∈ s
    · exact ⟨x, y, hx, hxy, hmem, hb⟩
    · exact ih hmem

/-- **Users that share no place** are no more than the places. -/
theorem card_le_of_exclusive {ι γ : Type*} {users : Finset ι} {places : Finset γ}
    {u : ι → Set γ}
    (hexclusive : ∀ i ∈ users, ∀ j ∈ users, i ≠ j → Disjoint (u i) (u j))
    (huses : ∀ i ∈ users, ∃ c ∈ places, c ∈ u i) : users.card ≤ places.card := by
  choose f hf using huses
  rw [← Finset.card_attach]
  refine Finset.card_le_card_of_injOn (fun i => f i.1 i.2) (fun i _ => (hf i.1 i.2).1) ?_
  intro i _ j _ heq
  by_contra hne
  have hdisjoint := hexclusive i.1 i.2 j.1 j.2 fun h => hne (Subtype.ext h)
  have hj : f i.1 i.2 ∈ u j.1 := by
    rw [show f i.1 i.2 = f j.1 j.2 from heq]
    exact (hf j.1 j.2).2
  exact Set.disjoint_left.1 hdisjoint (hf i.1 i.2).2 hj

end Crossing

/-! ## Sums along paths -/

section Sums

variable {V : Type*} {r : V → V → Prop} {w : V → ℤ} {C : V → Prop} {u v : V} {s : ℤ}

/-- The sum of a path along `r` from `v` that stops where `C` holds. -/
inductive PathSum (r : V → V → Prop) (w : V → ℤ) (C : V → Prop) : V → ℤ → Prop
  | stop {v : V} : C v → PathSum r w C v (w v)
  | step {u v : V} {s : ℤ} : r u v → PathSum r w C v s → PathSum r w C u (w u + s)

theorem pathSum_iff : PathSum r w C u s ↔
    (C u ∧ s = w u) ∨ ∃ v t, r u v ∧ PathSum r w C v t ∧ s = w u + t := by
  constructor
  · intro h
    cases h with
    | stop hC => exact .inl ⟨hC, rfl⟩
    | step hr h => exact .inr ⟨_, _, hr, h, rfl⟩
  · rintro (⟨hC, rfl⟩ | ⟨v, t, hr, h, rfl⟩)
    · exact .stop hC
    · exact .step hr h

theorem PathSum.nonneg (hw : ∀ v, 0 ≤ w v) (h : PathSum r w C v s) : 0 ≤ s := by
  induction h with
  | stop => exact hw _
  | step _ _ ih => exact Int.add_nonneg (hw _) ih

theorem PathSum.mono {C' : V → Prop} (hC : ∀ v, C v → C' v) (h : PathSum r w C v s) :
    PathSum r w C' v s := by
  induction h with
  | stop h => exact .stop (hC _ h)
  | step hr _ ih => exact .step hr ih

theorem PathSum.exists_le (hw : ∀ v, 0 ≤ w v) (hreach : ReflTransGen r u v)
    (h : PathSum r w C v s) : ∃ t, PathSum r w C u t ∧ s ≤ t := by
  induction hreach using ReflTransGen.head_induction_on with
  | refl => exact ⟨s, h, le_rfl⟩
  | @head a b hab _ ih =>
    obtain ⟨t, ht, hle⟩ := ih
    have := hw a
    exact ⟨w a + t, .step hab ht, by omega⟩

/-- The greatest of the sums, if there is one; otherwise `-1`. -/
def Largest (sums : Set ℤ) (t : ℤ) : Prop := IsGreatest sums t ∨ sums = ∅ ∧ t = -1

theorem Largest.union {P Q : Set ℤ} {s t : ℤ} (hP : Largest P s) (hQ : Largest Q t)
    (hp : ∀ x ∈ P, 0 ≤ x) (hq : ∀ x ∈ Q, 0 ≤ x) : Largest (P ∪ Q) (max s t) := by
  rcases hP with hP | ⟨rfl, rfl⟩ <;> rcases hQ with hQ | ⟨rfl, rfl⟩
  · exact .inl (hP.union hQ)
  · have := hp _ hP.1
    rw [Set.union_empty, max_eq_left (by omega)]
    exact .inl hP
  · have := hq _ hQ.1
    rw [Set.empty_union, max_eq_right (by omega)]
    exact .inl hQ
  · exact .inr ⟨Set.union_self _, rfl⟩

def sumsFrom (r : V → V → Prop) (w : V → ℤ) (C : V → Prop) (vs : List V) : Set ℤ :=
  {s | ∃ v ∈ vs, PathSum r w C v s}

@[simp] theorem sumsFrom_nil : sumsFrom r w C [] = ∅ := by simp [sumsFrom]

theorem sumsFrom_append_singleton (vs : List V) (v : V) :
    sumsFrom r w C (vs ++ [v]) = sumsFrom r w C vs ∪ {s | PathSum r w C v s} := by
  ext s
  simp [sumsFrom, or_and_right, exists_or]

theorem nonneg_of_mem_sumsFrom (hw : ∀ v, 0 ≤ w v) {vs : List V} (h : s ∈ sumsFrom r w C vs) :
    0 ≤ s := by
  obtain ⟨v, -, h⟩ := h
  exact h.nonneg hw

/-- **The largest sum from an element**, where paths may stop anywhere, adds its own weight to the
largest from its successors, if that is anything. -/
theorem isGreatest_pathSum {vs : List V} (hvs : ∀ v, r u v ↔ v ∈ vs) {best : ℤ}
    (hbest : IsGreatest (insert 0 (sumsFrom r w (fun _ => True) vs)) best) :
    IsGreatest {s | PathSum r w (fun _ => True) u s} (w u + best) := by
  obtain ⟨hmem, hupper⟩ := hbest
  constructor
  · rcases hmem with rfl | ⟨v, hv, hs⟩
    · rw [Int.add_zero]
      exact PathSum.stop trivial
    · exact PathSum.step ((hvs v).2 hv) hs
  · intro s hs
    rcases pathSum_iff.1 hs with ⟨-, rfl⟩ | ⟨v, t, hr, ht, rfl⟩
    · have := hupper (Set.mem_insert 0 _)
      omega
    · have := hupper (Set.mem_insert_of_mem 0 ⟨v, (hvs v).1 hr, ht⟩)
      omega

/-- **The largest sum from an element** is that of its own stop, if it is one, or that of a
successor with its weight added. -/
theorem largest_pathSum {vs : List V} (hvs : ∀ v, r u v ↔ v ∈ vs) {t : ℤ}
    (ht : Largest ({s | C u ∧ s = w u} ∪ (fun s => w u + s) '' sumsFrom r w C vs) t) :
    Largest {s | PathSum r w C u s} t := by
  have hset : {s | PathSum r w C u s} =
      {s | C u ∧ s = w u} ∪ (fun s => w u + s) '' sumsFrom r w C vs := by
    ext s
    rw [Set.mem_ofPred_eq, pathSum_iff]
    refine or_congr_right ⟨?_, ?_⟩
    · rintro ⟨v, t, hr, ht, rfl⟩
      exact ⟨t, ⟨v, (hvs v).1 hr, ht⟩, rfl⟩
    · rintro ⟨t, ⟨v, hv, ht⟩, rfl⟩
      exact ⟨v, t, (hvs v).2 hv, ht, rfl⟩
  rwa [hset]

end Sums

end MlirAie.Lib
