import Mathlib

/-!
# Resources held from pools

Holders take resources from pools. Each draws on one pool; a pool knows which of its resources are
in use, and a holder may be released, whereupon what it held can be handed out again.

* **`Owned.acquire`**, **`Owned.release`**: kept where a resource is handed out, and taken back;
* `Owned.released_of_shared`: who held a resource that another holder now has was released;
* `foldlM_keeps`: what every step of a failing loop keeps, the loop keeps.
-/

namespace MlirAie.Lib

variable {ι τ κ : Type*}

/-- The resources of the holders that are not released. -/
structure Owned (pool : ι → τ) (held : ι → List κ) (used : τ → Finset κ) (released : Finset ι) :
    Prop where
  used : ∀ t, t ∉ released → ∀ a ∈ held t, a ∈ used (pool t)
  disjoint : ∀ t u, t ∉ released → u ∉ released → pool t = pool u → t ≠ u →
    ∀ a ∈ held t, a ∉ held u

namespace Owned

variable {pool : ι → τ} {held : ι → List κ} {used : τ → Finset κ} {released : Finset ι}

theorem empty (pool : ι → τ) (used : τ → Finset κ) (released : Finset ι) :
    Owned pool (fun _ => []) used released where
  used _ _ _ ha := by cases ha
  disjoint _ _ _ _ _ _ _ ha := by cases ha

/-- A resource that is not in use is handed out. -/
theorem acquire [DecidableEq ι] [DecidableEq τ] [DecidableEq κ]
    (h : Owned pool held used released) {t : ι} {a : κ} (ha : a ∉ used (pool t)) :
    Owned pool (Function.update held t (a :: held t))
      (Function.update used (pool t) (insert a (used (pool t)))) released where
  used u hu b hb := by
    by_cases hut : u = t
    · subst hut
      rw [Function.update_self] at hb ⊢
      rcases List.mem_cons.1 hb with rfl | hb
      · exact Finset.mem_insert_self _ _
      · exact Finset.mem_insert_of_mem (h.used u hu b hb)
    · rw [Function.update_of_ne hut] at hb
      have hmem := h.used u hu b hb
      by_cases hpool : pool u = pool t
      · rw [hpool, Function.update_self]
        exact Finset.mem_insert_of_mem (hpool ▸ hmem)
      · rw [Function.update_of_ne hpool]
        exact hmem
  disjoint u v hu hv hpool hne b hb hb' := by
    by_cases hut : u = t
    · subst hut
      rw [Function.update_self] at hb
      rw [Function.update_of_ne hne.symm] at hb'
      rcases List.mem_cons.1 hb with rfl | hb
      · exact ha (hpool ▸ h.used v hv b hb')
      · exact h.disjoint u v hu hv hpool hne b hb hb'
    · rw [Function.update_of_ne hut] at hb
      by_cases hvt : v = t
      · subst hvt
        rw [Function.update_self] at hb'
        rcases List.mem_cons.1 hb' with rfl | hb'
        · exact ha (hpool ▸ h.used u hu b hb)
        · exact h.disjoint u v hu hv hpool hne b hb hb'
      · rw [Function.update_of_ne hvt] at hb'
        exact h.disjoint u v hu hv hpool hne b hb hb'

/-- A holder is released: the pool may keep less than it did, by what the holder held. -/
theorem release [DecidableEq ι] [DecidableEq τ] (h : Owned pool held used released) {t : ι}
    (ht : t ∉ released) {left : Finset κ}
    (hleft : ∀ a ∈ used (pool t), a ∉ held t → a ∈ left) :
    Owned pool held (Function.update used (pool t) left) (insert t released) where
  used u hu b hb := by
    rw [Finset.mem_insert, not_or] at hu
    have hmem := h.used u hu.2 b hb
    by_cases hpool : pool u = pool t
    · rw [hpool, Function.update_self]
      exact hleft b (hpool ▸ hmem) (h.disjoint u t hu.2 ht hpool hu.1 b hb)
    · rw [Function.update_of_ne hpool]
      exact hmem
  disjoint u v hu hv := h.disjoint u v (fun hmem => hu (Finset.mem_insert_of_mem hmem))
    (fun hmem => hv (Finset.mem_insert_of_mem hmem))

/-- A holder may hold less. -/
theorem shrink [DecidableEq ι] (h : Owned pool held used released) {t : ι} {l : List κ}
    (hl : l ⊆ held t) :
    Owned pool (Function.update held t l) used released := by
  have hsub (u : ι) : Function.update held t l u ⊆ held u := by
    by_cases hut : u = t
    · subst hut
      rwa [Function.update_self]
    · rw [Function.update_of_ne hut]
      exact List.Subset.refl _
  exact ⟨fun u hu b hb => h.used u hu b (hsub u hb), fun u v hu hv hpool hne b hb hb' =>
    h.disjoint u v hu hv hpool hne b (hsub u hb) (hsub v hb')⟩

theorem released_of_shared (h : Owned pool held used released) {t u : ι} {a : κ}
    (ht : t ∉ released) (hpool : pool u = pool t) (hne : u ≠ t) (ha : a ∈ held t)
    (ha' : a ∈ held u) : u ∈ released := by
  by_contra hu
  exact h.disjoint u t hu ht hpool hne a ha' ha

end Owned

/-! ## Taking back a list of resources -/

theorem mem_foldl_erase [DecidableEq κ] {s : Finset κ} {l : List κ} {a : κ} (ha : a ∈ s)
    (hl : a ∉ l) :
    a ∈ l.foldl Finset.erase s := by
  induction l generalizing s with
  | nil => exact ha
  | cons b l ih =>
    rw [List.mem_cons, not_or] at hl
    exact ih (Finset.mem_erase.2 ⟨hl.1, ha⟩) hl.2

theorem foldlM_keeps {σ α : Type*} {f : σ → α → Option σ} {P : σ → Prop} {l : List α}
    (hf : ∀ s, ∀ a ∈ l, ∀ s', P s → f s a = some s' → P s') {s s' : σ} (hs : P s)
    (h : l.foldlM f s = some s') : P s' := by
  induction l generalizing s with
  | nil =>
    obtain rfl : s = s' := Option.some.inj h
    exact hs
  | cons a l ih =>
    rw [List.foldlM_cons] at h
    obtain ⟨r, hr, hrest⟩ := Option.bind_eq_some_iff.1 h
    exact ih (fun s b hb => hf s b (List.mem_cons_of_mem a hb))
      (hf s a List.mem_cons_self r hs hr) hrest

end MlirAie.Lib
