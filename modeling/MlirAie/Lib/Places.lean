import MlirAie.Lib.Worklist

/-!
# Places of the elements of a list

Lists with the same elements in another order have them in other places.

* `exists_places`: the places of the elements in the other list;
* `zipIdx_perm`: the elements with their places;
* `modify_map`, `findSome?_tails`: an element by its name, and pairs of elements.
-/

namespace MlirAie.Lib

variable {α β : Type*}

/-- **Where the elements of a list stand in another order.** -/
theorem exists_places [DecidableEq α] {l l' : List α} (hl : l.Nodup) (h : l.Perm l') :
    ∃ σ : Equiv.Perm ℕ, ∀ i, l'[σ i]? = l[i]? := by
  have hplace : ∀ {m m' : List α}, m.Nodup → m.Perm m' → ∀ {i : ℕ} (hi : i < m.length),
      ∃ hj : m'.idxOf m[i] < m'.length, m'[m'.idxOf m[i]] = m[i] := by
    intro m m' _ hp i hi
    have hmem : m[i] ∈ m' := hp.subset (List.getElem_mem hi)
    exact ⟨List.idxOf_lt_length_of_mem hmem, List.getElem_idxOf _⟩
  let place : List α → List α → ℕ → ℕ := fun m m' i => m[i]?.elim i (m'.idxOf ·)
  have hin : ∀ {m m' : List α} {i : ℕ} (hi : i < m.length), place m m' i = m'.idxOf m[i] := by
    intro m m' i hi
    simp only [place, List.getElem?_eq_getElem hi, Option.elim_some]
  have hout : ∀ {m m' : List α} {i : ℕ}, m.length ≤ i → place m m' i = i := by
    intro m m' i hi
    simp only [place, List.getElem?_eq_none hi, Option.elim_none]
  have hinv : ∀ {m m' : List α}, m.Nodup → m.Perm m' → ∀ i, place m' m (place m m' i) = i := by
    intro m m' hm hp i
    rcases lt_or_ge i m.length with hi | hi
    · obtain ⟨hj, heq⟩ := hplace hm hp hi
      rw [hin hi, hin hj, heq]
      exact hm.idxOf_getElem i hi
    · rw [hout hi, hout (hp.length_eq ▸ hi)]
  refine ⟨⟨place l l', place l' l, hinv hl h, hinv (h.nodup_iff.1 hl) h.symm⟩, fun i => ?_⟩
  show l'[place l l' i]? = l[i]?
  rcases lt_or_ge i l.length with hi | hi
  · obtain ⟨hj, heq⟩ := hplace hl h hi
    rw [hin hi, List.getElem?_eq_getElem hj, heq, List.getElem?_eq_getElem hi]
  · rw [hout hi, List.getElem?_eq_none hi, List.getElem?_eq_none (h.length_eq ▸ hi)]

theorem zipIdx_perm {l l' : List α} {σ : Equiv.Perm ℕ} (h : ∀ i, l'[σ i]? = l[i]?) :
    l'.zipIdx.Perm (l.zipIdx.map fun p => (p.1, σ p.2)) := by
  have hnodup : ∀ m : List α, m.zipIdx.Nodup := by
    intro m
    refine List.Nodup.of_map Prod.snd ?_
    rw [List.zipIdx_map_snd]
    exact List.nodup_range'
  have hmap : (l.zipIdx.map fun p => (p.1, σ p.2)).Nodup := by
    refine (hnodup l).map fun p q hpq => ?_
    obtain ⟨h₁, h₂⟩ := Prod.mk.inj hpq
    exact Prod.ext h₁ (σ.injective h₂)
  refine (List.perm_ext_iff_of_nodup (hnodup l') hmap).2 ?_
  rintro ⟨a, j⟩
  simp only [List.mem_map, Prod.exists, List.mem_zipIdx_iff_getElem?, Prod.mk.injEq]
  constructor
  · intro hj
    refine ⟨a, σ.symm j, ?_, rfl, σ.apply_symm_apply j⟩
    rw [← h, σ.apply_symm_apply]
    exact hj
  · rintro ⟨b, i, hb, rfl, rfl⟩
    rw [h]
    exact hb

theorem appendNew_map [DecidableEq α] [DecidableEq β] {f : α → β} (hf : Function.Injective f)
    (ys xs : List α) : appendNew (ys.map f) (xs.map f) = (appendNew ys xs).map f := by
  induction xs generalizing ys with
  | nil => rfl
  | cons x xs ih =>
    rw [List.map_cons, appendNew_cons, appendNew_cons]
    by_cases hx : x ∈ ys
    · rw [if_pos hx, if_pos (List.mem_map_of_mem hx), ih]
    · rw [if_neg hx, if_neg (fun h => hx ((List.mem_map_of_injective hf).1 h)), ← ih,
        List.map_append, List.map_singleton]

theorem perm_of_subsingleton {l l' : List α} (hl : l.Nodup) (h : ∀ a ∈ l, ∀ b ∈ l, a = b)
    (hp : l'.Perm l) : l' = l := by
  cases l with
  | nil => exact List.perm_nil.1 hp
  | cons a l =>
    cases l with
    | nil => exact List.perm_singleton.1 hp
    | cons b l =>
      obtain rfl := h a List.mem_cons_self b (List.mem_cons_of_mem a List.mem_cons_self)
      exact absurd List.mem_cons_self (List.nodup_cons.1 hl).1

/-- Changing what one name stands for. -/
theorem modify_map [DecidableEq α] {l : List α} {i : ℕ} {a : α} {f f' : α → β} {g : β → β}
    (hl : l.Nodup) (hi : l[i]? = some a) (ha : f' a = g (f a)) (hf : ∀ b, b ≠ a → f' b = f b) :
    (l.map f).modify i g = l.map f' := by
  refine List.ext_getElem? fun j => ?_
  rw [List.getElem?_modify, List.getElem?_map, List.getElem?_map]
  cases hj : l[j]? with
  | none => rfl
  | some b =>
    rw [Option.map_some, Option.map_some]
    by_cases hij : i = j
    · subst hij
      obtain rfl := Option.some.inj (hi.symm.trans hj)
      rw [Option.map_eq_map, Option.map_some, if_pos rfl, ha]
    · have hne : b ≠ a := by
        rintro rfl
        obtain ⟨hlt, hget⟩ := List.getElem?_eq_some_iff.1 hi
        obtain ⟨hlt', hget'⟩ := List.getElem?_eq_some_iff.1 hj
        exact hij ((List.Nodup.getElem_inj_iff hl).1 (hget.trans hget'.symm))
      rw [Option.map_eq_map, Option.map_some, if_neg hij, hf b hne]

theorem findSome?_tails {F : α → α → Option β} {l : List α} :
    (l.tails.findSome? fun t => t.head?.bind fun a => t.tail.findSome? (F a)) = none ↔
      l.Pairwise fun a b => F a b = none := by
  induction l with
  | nil => simp
  | cons a l ih =>
    rw [List.tails_cons, List.findSome?_cons, List.pairwise_cons, ← ih]
    simp only [List.head?_cons, Option.bind_some, List.tail_cons]
    cases h : l.findSome? (F a) with
    | none =>
      refine ⟨fun hrest => ⟨fun b hb => List.findSome?_eq_none_iff.1 h b hb, hrest⟩, And.right⟩
    | some x =>
      refine ⟨fun h => (Option.some_ne_none _ h).elim, fun hrest => ?_⟩
      rw [List.findSome?_eq_none_iff.2 hrest.1] at h
      cases h

end MlirAie.Lib
