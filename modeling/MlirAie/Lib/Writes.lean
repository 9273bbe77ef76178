import Mathlib

/-!
# Writes to a store

A store keeps a value per key, and a list of writes is applied in order.

* `writeAll`, `lastWrite`: a list of writes, and what it leaves at a key;
* `lastWrite_congr`: writes that agree at a key can be reordered and repeated;
* `lastWrite_flatMap_congr`: blocks of writes, compared one by one.
-/

namespace MlirAie.Lib

/-- A value per key, where one was written. -/
abbrev Store (κ ν : Type*) := κ → Option ν

def Store.reset {κ ν : Type*} : Store κ ν := fun _ => none

variable {κ ν κ' ν' β : Type*} [DecidableEq κ] [DecidableEq κ']

def writeAll (ws : List (κ × ν)) (s : Store κ ν) : Store κ ν :=
  ws.foldl (fun s w => Function.update s w.1 (some w.2)) s

/-- What the last write to `k` writes. -/
@[grind =] def lastWrite (k : κ) : List (κ × ν) → Option ν
  | [] => none
  | w :: ws => (lastWrite k ws).or (if w.1 = k then some w.2 else none)

@[simp] theorem writeAll_nil (s : Store κ ν) : writeAll [] s = s := rfl

@[simp] theorem writeAll_cons (w : κ × ν) (ws : List (κ × ν)) (s : Store κ ν) :
    writeAll (w :: ws) s = writeAll ws (Function.update s w.1 (some w.2)) := rfl

theorem writeAll_apply (ws : List (κ × ν)) (s : Store κ ν) (k : κ) :
    writeAll ws s k = (lastWrite k ws).or (s k) := by
  induction ws generalizing s with
  | nil => rfl
  | cons w ws ih =>
    rw [writeAll_cons, ih, lastWrite, Option.or_assoc]
    congr 1
    by_cases h : w.1 = k
    · rw [if_pos h, ← h, Function.update_self]
      rfl
    · rw [if_neg h, Function.update_of_ne fun h' => h h'.symm]
      rfl

theorem writeAll_reset (ws : List (κ × ν)) (k : κ) :
    writeAll ws Store.reset k = lastWrite k ws := by
  rw [writeAll_apply, Store.reset, Option.or_none]

theorem lastWrite_append (k : κ) (ws ws' : List (κ × ν)) :
    lastWrite k (ws ++ ws') = (lastWrite k ws').or (lastWrite k ws) := by
  induction ws with
  | nil => rw [List.nil_append, lastWrite, Option.or_none]
  | cons w ws ih => rw [List.cons_append, lastWrite, ih, lastWrite, Option.or_assoc]

theorem mem_of_lastWrite {k : κ} {v : ν} {ws : List (κ × ν)} (h : lastWrite k ws = some v) :
    (k, v) ∈ ws := by
  induction ws with
  | nil => cases h
  | cons w ws ih =>
    rw [lastWrite, Option.or_eq_some_iff] at h
    rcases h with h | ⟨_, h⟩
    · exact List.mem_cons_of_mem w (ih h)
    · by_cases hw : w.1 = k
      · rw [if_pos hw] at h
        cases h
        rw [← hw]
        exact List.mem_cons_self
      · rw [if_neg hw] at h
        cases h

theorem lastWrite_eq_none {k : κ} {ws : List (κ × ν)} :
    lastWrite k ws = none ↔ ∀ v, (k, v) ∉ ws := by
  induction ws with
  | nil => simp [lastWrite]
  | cons w ws ih =>
    rw [lastWrite, Option.or_eq_none_iff, ih]
    constructor
    · rintro ⟨h, hw⟩ v hv
      rcases List.mem_cons.1 hv with rfl | hv
      · rw [if_pos rfl] at hw
        cases hw
      · exact h v hv
    · intro h
      refine ⟨fun v hv => h v (List.mem_cons_of_mem w hv), if_neg fun hw => ?_⟩
      exact h w.2 (by rw [← hw]; exact List.mem_cons_self)

theorem lastWrite_of_agree {k : κ} {v : ν} {ws : List (κ × ν)} (h : (k, v) ∈ ws)
    (hagree : ∀ v', (k, v') ∈ ws → v' = v) : lastWrite k ws = some v := by
  cases hl : lastWrite k ws with
  | none => exact absurd h (lastWrite_eq_none.1 hl v)
  | some v' => rw [hagree v' (mem_of_lastWrite hl)]

/-- **Writes that agree at a key can be reordered and repeated.** -/
theorem lastWrite_congr {k : κ} {ws ws' : List (κ × ν)}
    (hmem : ∀ v, (k, v) ∈ ws ↔ (k, v) ∈ ws')
    (hagree : ∀ v v', (k, v) ∈ ws → (k, v') ∈ ws → v = v') :
    lastWrite k ws = lastWrite k ws' := by
  cases h : lastWrite k ws with
  | none =>
    refine (lastWrite_eq_none.2 fun v hv => ?_).symm
    exact lastWrite_eq_none.1 h v ((hmem v).2 hv)
  | some v =>
    have hv := mem_of_lastWrite h
    refine (lastWrite_of_agree ((hmem v).1 hv) fun v' hv' => ?_).symm
    exact hagree v' v ((hmem v').2 hv') hv

theorem lastWrite_flatMap_congr {k : κ} {bs : List β} {f g : β → List (κ × ν)}
    (h : ∀ b ∈ bs, lastWrite k (f b) = lastWrite k (g b)) :
    lastWrite k (bs.flatMap f) = lastWrite k (bs.flatMap g) := by
  induction bs with
  | nil => rfl
  | cons b bs ih =>
    rw [List.flatMap_cons, List.flatMap_cons, lastWrite_append, lastWrite_append,
      h b List.mem_cons_self, ih fun b' hb' => h b' (List.mem_cons_of_mem b hb')]

theorem lastWrite_map (f : ν → ν') (k : κ) (ws : List (κ × ν)) :
    lastWrite k (ws.map fun w => (w.1, f w.2)) = (lastWrite k ws).map f := by
  induction ws with
  | nil => rfl
  | cons w ws ih =>
    rw [List.map_cons, lastWrite, ih, lastWrite]
    cases lastWrite k ws with
    | some v => rfl
    | none =>
      by_cases h : w.1 = k
      · rw [if_pos h, if_pos h]
        rfl
      · rw [if_neg h, if_neg h]
        rfl

/-! ## Renaming keys -/

/-- A write and its image under a partial renaming of keys and values. -/
def LowersWrite (f : κ → Option κ') (g : ν → Option ν') (w : κ × ν) (w' : κ' × ν') : Prop :=
  f w.1 = some w'.1 ∧ g w.2 = some w'.2

/-- A store seen through a partial renaming of its keys: a renamed key has the image of the value,
and no other key was written. -/
structure Lowers (f : κ → Option κ') (g : ν → Option ν') (s : Store κ ν) (s' : Store κ' ν') :
    Prop where
  apply : ∀ k k', f k = some k' → s' k' = (s k).bind g
  written : ∀ k' v', s' k' = some v' → ∃ k, f k = some k'

omit [DecidableEq κ] [DecidableEq κ'] in
theorem Lowers.reset (f : κ → Option κ') (g : ν → Option ν') :
    Lowers f g Store.reset Store.reset :=
  ⟨fun _ _ _ => rfl, fun _ _ h => by cases h⟩

variable {f : κ → Option κ'} {g : ν → Option ν'}

theorem Lowers.update {s : Store κ ν} {s' : Store κ' ν'} (h : Lowers f g s s')
    (hinj : ∀ k₁ k₂ k', f k₁ = some k' → f k₂ = some k' → k₁ = k₂) {w : κ × ν} {w' : κ' × ν'}
    (hw : LowersWrite f g w w') :
    Lowers f g (Function.update s w.1 (some w.2)) (Function.update s' w'.1 (some w'.2)) := by
  refine ⟨fun k k' hk => ?_, fun k' v' hv => ?_⟩
  · by_cases hkw : k = w.1
    · subst hkw
      have : k' = w'.1 := Option.some_injective _ (hk.symm.trans hw.1)
      rw [this, Function.update_self, Function.update_self, Option.bind_some, hw.2]
    · have : k' ≠ w'.1 := fun heq => hkw (hinj _ _ _ hk (heq ▸ hw.1))
      rw [Function.update_of_ne this, Function.update_of_ne hkw]
      exact h.apply k k' hk
  · by_cases hkw : k' = w'.1
    · exact ⟨w.1, hkw ▸ hw.1⟩
    · rw [Function.update_of_ne hkw] at hv
      exact h.written k' v' hv

/-- **Renamed writes leave the renamed store.** -/
theorem Lowers.writeAll {s : Store κ ν} {s' : Store κ' ν'} (h : Lowers f g s s')
    (hinj : ∀ k₁ k₂ k', f k₁ = some k' → f k₂ = some k' → k₁ = k₂) {ws : List (κ × ν)}
    {ws' : List (κ' × ν')} (hws : List.Forall₂ (LowersWrite f g) ws ws') :
    Lowers f g (writeAll ws s) (writeAll ws' s') := by
  induction hws generalizing s s' with
  | nil => exact h
  | cons hw _ ih => exact ih (h.update hinj hw)

omit [DecidableEq κ] [DecidableEq κ'] in
theorem Lowers.eq_of_eq {s₁ s₂ : Store κ ν} {s₁' s₂' : Store κ' ν'} (h₁ : Lowers f g s₁ s₁')
    (h₂ : Lowers f g s₂ s₂') (heq : ∀ k v, s₁ k = some v → s₂ k = some v) {k' : κ'} {v' : ν'}
    (hv : s₁' k' = some v') : s₂' k' = some v' := by
  obtain ⟨k, hk⟩ := h₁.written k' v' hv
  rw [h₁.apply k k' hk, Option.bind_eq_some_iff] at hv
  obtain ⟨v, hv, hg⟩ := hv
  rw [h₂.apply k k' hk, heq k v hv, Option.bind_some, hg]

end MlirAie.Lib
