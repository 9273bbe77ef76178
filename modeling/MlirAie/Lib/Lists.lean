import Mathlib

/-!
# Lists of computations

What a `mapM` that succeeds returns, for `Option` and for `Except`, what a lookup finds, and what a
fold over elements and their places keeps.

* `rounds`: a list repeated; **`isChain_rounds_iff`**: neighbours are related in every number of
  rounds exactly if they are in one, and the last element is related to the first;
* **`sum_range_replace`**: a total over all indices, when the terms of some of them are replaced.
-/

namespace MlirAie.Lib

theorem mapM_forall₂ {α β : Type} {f : α → Option β} {l : List α} {l' : List β} :
    l.mapM f = some l' ↔ List.Forall₂ (fun a b => f a = some b) l l' := by
  induction l generalizing l' with
  | nil =>
    rw [List.mapM_nil, List.forall₂_nil_left_iff]
    exact ⟨fun h => (Option.some_injective _ h).symm, fun h => by rw [h]; rfl⟩
  | cons a l ih =>
    rw [List.mapM_cons, List.forall₂_cons_left_iff]
    constructor
    · intro h
      obtain ⟨b, hb, h⟩ := Option.bind_eq_some_iff.1 h
      obtain ⟨u, hu, h⟩ := Option.bind_eq_some_iff.1 h
      exact ⟨b, u, hb, ih.1 hu, (Option.some_injective _ h).symm⟩
    · rintro ⟨b, u, hb, hu, rfl⟩
      rw [hb, ih.2 hu]
      rfl

theorem exists_mapM_zipWith {α β γ δ : Type} {e : α → β → γ} {f : γ → Option δ} {R : α → δ → Prop}
    {l : List α} {m : List β} (hlen : l.length = m.length) :
    (∃ r, (List.zipWith e l m).mapM f = some r ∧ List.Forall₂ R l r) ↔
      ∀ x ∈ l.zip m, ∃ c, f (e x.1 x.2) = some c ∧ R x.1 c := by
  induction l generalizing m with
  | nil =>
    rw [List.zip_nil_left]
    exact ⟨fun _ => List.forall_mem_nil _, fun _ => ⟨[], rfl, .nil⟩⟩
  | cons a l ih =>
    cases m with
    | nil => cases hlen
    | cons b m =>
      rw [List.zip_cons_cons, List.forall_mem_cons, ← ih (Nat.succ.inj hlen)]
      simp only [List.zipWith_cons_cons, mapM_forall₂, List.forall₂_cons_left_iff]
      constructor
      · rintro ⟨_, ⟨c, r, hc, hr, rfl⟩, _, _, hR, h, heq⟩
        obtain ⟨rfl, rfl⟩ := List.cons.inj heq
        exact ⟨⟨c, hc, hR⟩, r, hr, h⟩
      · rintro ⟨⟨c, hc, hR⟩, r, hr, h⟩
        exact ⟨c :: r, ⟨c, r, hc, hr, rfl⟩, c, r, hR, h, rfl⟩

theorem exists_mapM_map {α γ δ : Type} {e : α → γ} {f : γ → Option δ} {R : α → δ → Prop}
    {l : List α} :
    (∃ r, (l.map e).mapM f = some r ∧ List.Forall₂ R l r) ↔
      ∀ a ∈ l, ∃ c, f (e a) = some c ∧ R a c := by
  have h := exists_mapM_zipWith (e := fun a _ => e a) (f := f) (R := R) (l := l) (m := l) rfl
  rw [List.zipWith_self] at h
  rw [h, List.zip, List.zipWith_self, List.forall_mem_map]

theorem lookup_eq_some_mem {α β : Type} [DecidableEq α] {l : List (α × β)}
    (h : (l.map Prod.fst).Nodup) {k : α} {b : β} : l.lookup k = some b ↔ (k, b) ∈ l := by
  induction l with
  | nil => exact iff_of_false (by simp) List.not_mem_nil
  | cons p l ih =>
    obtain ⟨k', b'⟩ := p
    rw [List.map_cons, List.nodup_cons] at h
    rw [List.lookup_cons, List.mem_cons, Prod.mk.injEq]
    by_cases hk : k = k'
    · subst hk
      rw [beq_self_eq_true]
      refine ⟨fun hb => Or.inl ⟨rfl, (Option.some.inj hb).symm⟩, ?_⟩
      rintro (⟨_, rfl⟩ | hmem)
      · rfl
      · exact absurd (List.mem_map_of_mem hmem) h.1
    · rw [beq_eq_false_iff_ne.2 hk]
      exact (ih h.2).trans ⟨Or.inr, fun hb => hb.resolve_left fun hb => hk hb.1⟩

theorem exists_mapM {α β : Type} {f : α → Option β} {l : List α}
    (h : ∀ a ∈ l, ∃ b, f a = some b) : ∃ l', l.mapM f = some l' := by
  induction l with
  | nil => exact ⟨[], rfl⟩
  | cons a l ih =>
    obtain ⟨b, hb⟩ := h a List.mem_cons_self
    obtain ⟨l', hl'⟩ := ih fun a' ha' => h a' (List.mem_cons_of_mem a ha')
    exact ⟨b :: l', by rw [List.mapM_cons, hb, hl']; rfl⟩

theorem mapM_eq_some {α β : Type*} {f : α → Option β} {g : α → β} {xs : List α}
    (h : ∀ x ∈ xs, f x = some (g x)) : xs.mapM f = some (xs.map g) := by
  induction xs with
  | nil => rfl
  | cons x xs ih =>
    rw [List.mapM_cons, h x List.mem_cons_self, ih fun y hy => h y (List.mem_cons_of_mem x hy)]
    rfl

theorem forall₂_getElem? {α β : Type*} {R : α → β → Prop} {l : List α} {l' : List β}
    (h : List.Forall₂ R l l') {i : ℕ} {a : α} {b : β} (ha : l[i]? = some a) (hb : l'[i]? = some b) :
    R a b := by
  induction h generalizing i with
  | nil => cases ha
  | cons hab _ ih =>
    cases i with
    | zero =>
      cases ha
      cases hb
      exact hab
    | succ i => exact ih ha hb

theorem map_eq_of_forall₂ {α β γ : Type*} {f : α → γ} {g : β → γ} {l : List α} {l' : List β}
    (h : List.Forall₂ (fun a b => f a = g b) l l') : l.map f = l'.map g := by
  induction h with
  | nil => rfl
  | cons hab _ ih => rw [List.map_cons, List.map_cons, hab, ih]

theorem bind_eq_ok {α β ε : Type*} {x : Except ε α} {f : α → Except ε β} {b : β} :
    x.bind f = .ok b ↔ ∃ a, x = .ok a ∧ f a = .ok b := by
  cases x with
  | error e => simp [Except.bind]
  | ok a => simp [Except.bind]

theorem forM_eq_ok {α : Type} {f : α → Except String Unit} {l : List α} :
    l.forM f = .ok () ↔ ∀ a ∈ l, f a = .ok () := by
  induction l with
  | nil => exact iff_of_true rfl (List.forall_mem_nil _)
  | cons a l ih =>
    rw [List.forall_mem_cons, ← ih]
    show (f a >>= fun _ => l.forM f) = .ok () ↔ _
    cases h : f a with
    | error e =>
      constructor
      · intro h'
        cases h'
      · rintro ⟨h', _⟩
        cases h'
    | ok u => exact ⟨fun h' => ⟨rfl, h'⟩, fun h' => h'.2⟩

theorem mapM_ok {α β ε : Type} {f : α → Except ε β} {l : List α} {l' : List β}
    (h : l.mapM f = .ok l') : List.Forall₂ (fun a b => f a = .ok b) l l' := by
  induction l generalizing l' with
  | nil =>
    cases h
    exact .nil
  | cons a l ih =>
    rw [List.mapM_cons] at h
    cases ha : f a with
    | error e =>
      rw [ha] at h
      cases h
    | ok b =>
      rw [ha] at h
      cases hl : l.mapM f with
      | error e =>
        simp only [bind, Except.bind, hl] at h
        cases h
      | ok bs =>
        simp only [bind, Except.bind, hl] at h
        cases h
        exact .cons ha (ih hl)

theorem mapM_eq_ok {α β ε : Type} {f : α → Except ε β} {l : List α} {l' : List β} :
    l.mapM f = .ok l' ↔ List.Forall₂ (fun a b => f a = .ok b) l l' := by
  refine ⟨mapM_ok, fun h => ?_⟩
  induction h with
  | nil => rfl
  | cons hab _ ih =>
    rw [List.mapM_cons, hab, ih]
    rfl

theorem foldl_zipIdx {α β : Type*} {P : ℕ → β → Prop} {f : β → α × ℕ → β} {xs : List α}
    (h : ∀ n x b, xs[n]? = some x → P n b → P (n + 1) (f b (x, n))) {b : β} (hb : P 0 b) :
    P xs.length (xs.zipIdx.foldl f b) := by
  have hrest : ∀ (ys : List α) (n : ℕ) (b : β), (∀ i, xs[n + i]? = ys[i]?) → P n b →
      P (n + ys.length) ((ys.zipIdx n).foldl f b) := by
    intro ys
    induction ys with
    | nil => exact fun n b _ hb => hb
    | cons y ys ih =>
      intro n b hys hb
      have hnext := ih (n + 1) (f b (y, n)) (fun i => ?_) (h n y b (hys 0) hb)
      · rw [List.zipIdx_cons, List.foldl_cons, List.length_cons, Nat.add_comm ys.length 1,
          ← Nat.add_assoc]
        exact hnext
      · rw [Nat.add_assoc, Nat.add_comm 1 i, hys (i + 1), List.getElem?_cons_succ]
  have hall := hrest xs 0 b (fun i => by rw [Nat.zero_add]) hb
  rwa [Nat.zero_add] at hall

theorem one_lt_countP_iff {α : Type*} {l : List α} (hl : l.Nodup) {p : α → Bool} {a : α}
    (ha : a ∈ l) (hp : p a = true) : 1 < l.countP p ↔ ∃ b ∈ l, b ≠ a ∧ p b = true := by
  obtain ⟨front, back, rfl⟩ := List.append_of_mem ha
  rw [List.nodup_middle, List.nodup_cons] at hl
  have hcount : (front ++ a :: back).countP p = (front ++ back).countP p + 1 := by
    simp only [List.countP_append, List.countP_cons, hp, if_true]
    omega
  rw [hcount, Nat.lt_add_left_iff_pos, List.countP_pos_iff]
  constructor
  · rintro ⟨b, hb, hpb⟩
    refine ⟨b, ?_, ?_, hpb⟩
    · rw [List.mem_append] at hb
      rw [List.mem_append, List.mem_cons]
      exact hb.imp_right Or.inr
    · rintro rfl
      exact hl.1 hb
  · rintro ⟨b, hb, hne, hpb⟩
    refine ⟨b, ?_, hpb⟩
    rw [List.mem_append, List.mem_cons] at hb
    rw [List.mem_append]
    exact hb.imp_right fun h => h.resolve_left hne

/-! ## A list gone through again and again -/

section Rounds

variable {α β : Type*}

/-- The list `xs` gone through `m` times in a row. -/
def rounds (xs : List α) (m : ℕ) : List α := (List.replicate m xs).flatten

@[simp] theorem rounds_zero (xs : List α) : rounds xs 0 = [] := rfl

theorem rounds_succ (xs : List α) (m : ℕ) : rounds xs (m + 1) = xs ++ rounds xs m := by
  rw [rounds, List.replicate_succ, List.flatten_cons]
  rfl

theorem rounds_one (xs : List α) : rounds xs 1 = xs := by
  rw [rounds_succ, rounds_zero, List.append_nil]

theorem filterMap_rounds (f : α → Option β) (xs : List α) (m : ℕ) :
    (rounds xs m).filterMap f = rounds (xs.filterMap f) m := by
  induction m with
  | zero => rfl
  | succ m ih => rw [rounds_succ, rounds_succ, List.filterMap_append, ih]

theorem countP_rounds (p : α → Bool) (xs : List α) (m : ℕ) :
    (rounds xs m).countP p = m * xs.countP p := by
  induction m with
  | zero => simp
  | succ m ih => rw [rounds_succ, List.countP_append, ih, Nat.succ_mul, add_comm]

theorem head?_rounds {xs : List α} {m : ℕ} {b : α} (h : b ∈ (rounds xs m).head?) :
    b ∈ xs.head? := by
  induction m with
  | zero => cases h
  | succ m ih =>
    rw [rounds_succ] at h
    cases xs with
    | nil => exact ih h
    | cons x xs => exact h

/-- **Neighbours are related in every number of rounds** if they are in one and across its ends. -/
theorem isChain_rounds_iff {R : α → α → Prop} {xs : List α} :
    (∀ m, (rounds xs m).IsChain R) ↔
      xs.IsChain R ∧ ∀ a ∈ xs.getLast?, ∀ b ∈ xs.head?, R a b := by
  constructor
  · intro h
    have htwo := h 2
    rw [rounds_succ, rounds_one, List.isChain_append] at htwo
    exact ⟨htwo.1, htwo.2.2⟩
  · rintro ⟨hone, hwrap⟩ m
    induction m with
    | zero => exact List.isChain_nil
    | succ m ih =>
      rw [rounds_succ, List.isChain_append]
      exact ⟨hone, ih, fun a ha b hb => hwrap a ha b (head?_rounds hb)⟩

end Rounds

/-! ## Totals that are kept up to date -/

section Totals

/-- A quantity of a state to which each step adds its term. -/
theorem foldl_add {σ M : Type*} [AddCommMonoid M] (q : σ → M) (step : σ → ℕ → σ) (f : ℕ → M)
    (l : List ℕ) (hstep : ∀ i ∈ l, ∀ s, q (step s i) = q s + f i) (s : σ) :
    q (l.foldl step s) = q s + (l.map f).sum := by
  induction l generalizing s with
  | nil => simp
  | cons i l ih =>
    rw [List.foldl_cons, ih (fun j hj => hstep j (List.mem_cons_of_mem _ hj)),
      hstep i List.mem_cons_self, List.map_cons, List.sum_cons, add_assoc]

theorem sum_map_eq_sum_toFinset {M : Type*} [AddCommMonoid M] {l : List ℕ} (hl : l.Nodup)
    (f : ℕ → M) : (l.map f).sum = ∑ i ∈ l.toFinset, f i :=
  (List.sum_toFinset f hl).symm

/-- **The terms of a list of indices are replaced**, the other ones being the same. -/
theorem sum_range_replace {M : Type*} [AddCommGroup M] {n : ℕ} {l : List ℕ} (hl : l.Nodup)
    (hlt : ∀ i ∈ l, i < n) {f g : ℕ → M} (hsame : ∀ i, i < n → i ∉ l → g i = f i) :
    ∑ i ∈ Finset.range n, g i = ∑ i ∈ Finset.range n, f i - (l.map f).sum + (l.map g).sum := by
  have hsub : l.toFinset ⊆ Finset.range n := fun i hi =>
    Finset.mem_range.2 (hlt i (List.mem_toFinset.1 hi))
  have hrest : ∑ i ∈ Finset.range n \ l.toFinset, g i = ∑ i ∈ Finset.range n \ l.toFinset, f i := by
    refine Finset.sum_congr rfl fun i hi => ?_
    obtain ⟨hi, hnot⟩ := Finset.mem_sdiff.1 hi
    exact hsame i (Finset.mem_range.1 hi) fun hmem => hnot (List.mem_toFinset.2 hmem)
  rw [sum_map_eq_sum_toFinset hl, sum_map_eq_sum_toFinset hl, ← Finset.sum_sdiff hsub (f := g),
    ← Finset.sum_sdiff hsub (f := f), hrest]
  abel

end Totals

end MlirAie.Lib
