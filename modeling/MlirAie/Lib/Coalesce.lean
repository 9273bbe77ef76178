import MlirAie.Lib.Rewrite

/-!
# Coalescing cells

A sequence of cells with other elements between them. A cell may be moved forward into the next
one, across what stands between them, if nothing there stops it and the two fit together.

* `Merge`: one cell moved into the next;
* **`MergeInto.clean`**: where there is neither, a merge keeps the effects, and leaves neither;
* **`clean_iff`**: exactly then no run of merges changes the effects or exceeds the limit.
-/

namespace MlirAie.Lib

variable {β γ : Type*}

/-- A cell, and what stands between the previous one and it. -/
structure Block (β γ : Type*) where
  gap : List γ
  cell : List β
deriving DecidableEq, Repr

/-- The rules of a merge: what stops it, which elements have no effect, how much a cell element
weighs, and the weights that are taken to fit below the limit. -/
structure MergeRules (β γ : Type*) where
  stops : γ → Bool
  silent : γ → Bool
  weight : β → ℕ
  limit : ℕ
  fits : ℕ → ℕ → Prop
  fits_of_lt : ∀ a b, a + b < limit → fits a b

namespace MergeRules

variable (R : MergeRules β γ)

/-- The weight of cells together. -/
@[grind =] def total (bs : List (Block β γ)) : ℕ := (bs.map fun b => (b.cell.map R.weight).sum).sum

/-- The elements in order, those of a cell one by one, without the silent ones. -/
def effects (bs : List (Block β γ)) : List (β ⊕ γ) :=
  bs.flatMap fun b => (b.gap.filter fun o => !R.silent o).map .inr ++ b.cell.map .inl

/-- One cell moved into the next, with the block they become. -/
inductive MergeInto : Block β γ → List (Block β γ) → List (Block β γ) → Prop
  | mk (pre : List (Block β γ)) (a b : Block β γ) (post : List (Block β γ))
      (hstops : ∀ o ∈ b.gap, R.stops o = false) (hfits : R.fits (R.total [a]) (R.total [b])) :
      MergeInto ⟨a.gap ++ b.gap, a.cell ++ b.cell⟩ (pre ++ a :: b :: post)
        (pre ++ ⟨a.gap ++ b.gap, a.cell ++ b.cell⟩ :: post)

/-- Some cell moved into the next. -/
def Merge (l l' : List (Block β γ)) : Prop := ∃ c, R.MergeInto c l l'

/-- Nothing between the cells stops a merge. -/
def Open (bs : List (Block β γ)) : Prop := ∀ b ∈ bs.tail, ∀ o ∈ b.gap, R.stops o = false

/-- Cells that fit together, around an element with an effect. -/
def Crossing (l : List (Block β γ)) : Prop :=
  ∃ u b, u ++ [b] <:+: l ∧ R.Open (u ++ [b]) ∧ u.flatMap Block.cell ≠ [] ∧
    (∃ o ∈ b.gap, R.silent o = false) ∧ R.total (u ++ [b]) < R.limit

/-- A cell, or cells that fit together. -/
def Group (bs : List (Block β γ)) : Prop := bs ≠ [] ∧ (R.total bs < R.limit ∨ bs.length = 1)

/-- Groups of cells that are taken to fit together, but reach the limit. -/
def Overflowing (l : List (Block β γ)) : Prop :=
  ∃ u v, u ++ v <:+: l ∧ R.Open (u ++ v) ∧ R.Group u ∧ R.Group v ∧
    R.fits (R.total u) (R.total v) ∧ R.limit ≤ R.total (u ++ v)

/-- No run of merges goes wrong. -/
structure Clean (l : List (Block β γ)) : Prop where
  crossing : ¬ R.Crossing l
  overflowing : ¬ R.Overflowing l

variable {R} {l l' pre post w : List (Block β γ)} {a b m : Block β γ}

@[simp] theorem total_nil : R.total ([] : List (Block β γ)) = 0 := rfl

theorem total_cons : R.total (b :: l) = R.total [b] + R.total l := by
  simp [total]

theorem total_append : R.total (l ++ l') = R.total l + R.total l' := by
  simp [total]

/-- The two cells as one weigh as much. -/
theorem total_merged : R.total [⟨a.gap ++ b.gap, a.cell ++ b.cell⟩] = R.total [a, b] := by
  simp [total]

theorem total_around (w₁ w₂ : List (Block β γ)) (a b : Block β γ) :
    R.total (w₁ ++ ⟨a.gap ++ b.gap, a.cell ++ b.cell⟩ :: w₂) = R.total (w₁ ++ a :: b :: w₂) := by
  simp [total]
  omega

/-! ## Parts of a sequence -/

theorem infix_append_cons (h : w <:+: pre ++ m :: post) :
    w <:+: pre ∨ w <:+: post ∨ ∃ w₁ w₂, w = w₁ ++ m :: w₂ ∧ w₁ <:+ pre ∧ w₂ <+: post := by
  obtain ⟨p, q, hpq⟩ := h
  rw [List.append_assoc] at hpq
  rcases List.append_eq_append_iff.1 hpq with ⟨as, hpre, hw⟩ | ⟨cs, hp, hw⟩
  · rcases List.append_eq_append_iff.1 hw with ⟨bs, has, _⟩ | ⟨bs, hw, hq⟩
    · exact .inl ⟨p, bs, by rw [hpre, has, List.append_assoc]⟩
    · cases bs with
      | nil =>
        rw [List.append_nil] at hw
        exact .inl ⟨p, [], by rw [hpre, hw, List.append_nil]⟩
      | cons c bs =>
        obtain ⟨rfl, hpost⟩ := List.cons_eq_cons.1 hq
        exact .inr (.inr ⟨as, bs, hw, ⟨p, hpre.symm⟩, ⟨q, hpost.symm⟩⟩)
  · cases cs with
    | nil =>
      rw [List.nil_append] at hw
      cases w with
      | nil => exact .inl ⟨pre, [], by simp⟩
      | cons c w =>
        obtain ⟨rfl, hpost⟩ := List.cons_eq_cons.1 hw
        exact .inr (.inr ⟨[], w, rfl, ⟨pre, by simp⟩, ⟨q, hpost.symm⟩⟩)
    | cons c cs =>
      obtain ⟨rfl, hpost⟩ := List.cons_eq_cons.1 hw
      exact .inr (.inl ⟨cs, q, by rw [List.append_assoc]; exact hpost.symm⟩)

theorem infix_of_around {w₁ w₂ : List (Block β γ)} (h₁ : w₁ <:+ pre) (h₂ : w₂ <+: post) :
    w₁ ++ a :: b :: w₂ <:+: pre ++ a :: b :: post := by
  obtain ⟨p, rfl⟩ := h₁
  obtain ⟨q, rfl⟩ := h₂
  exact ⟨p, q, by simp⟩

theorem infix_append_left (post : List (Block β γ)) (h : w <:+: pre) : w <:+: pre ++ post :=
  h.trans (List.infix_append [] pre post)

theorem infix_append_right (pre : List (Block β γ)) (h : w <:+: post) : w <:+: pre ++ post :=
  h.trans (List.suffix_append pre post).isInfix

/-- Around two cells as one, what was between the cells is the same as around both. -/
theorem Open.split {w₁ w₂ : List (Block β γ)} (hstops : ∀ o ∈ b.gap, R.stops o = false)
    (h : R.Open (w₁ ++ ⟨a.gap ++ b.gap, a.cell ++ b.cell⟩ :: w₂)) :
    R.Open (w₁ ++ a :: b :: w₂) := by
  cases w₁ with
  | nil =>
    intro c hc
    rcases List.mem_cons.1 hc with rfl | hc
    · exact hstops
    · exact h c hc
  | cons d w₁ =>
    intro c hc
    rcases List.mem_append.1 hc with hc | hc
    · exact h c (List.mem_append_left _ hc)
    · rcases List.mem_cons.1 hc with rfl | hc
      · exact fun o ho => h _ (List.mem_append_right w₁ List.mem_cons_self) o
          (List.mem_append_left _ ho)
      · rcases List.mem_cons.1 hc with rfl | hc
        · exact hstops
        · exact h c (List.mem_append_right w₁ (List.mem_cons_of_mem _ hc))

theorem Open.of_prefix {w' : List (Block β γ)} (h : R.Open (w ++ w')) : R.Open w := by
  intro b hb
  cases w with
  | nil => cases hb
  | cons c w => exact h b (List.mem_append_left w' hb)

theorem Open.of_suffix {w' : List (Block β γ)} (h : R.Open (w ++ w')) : R.Open w' := by
  intro b hb
  cases w with
  | nil => exact h b hb
  | cons c w => exact h b (List.mem_append_right w (List.mem_of_mem_tail hb))

/-- What stands before the cells of the later part stops no merge. -/
theorem Open.gaps {w' : List (Block β γ)} (h : R.Open (w ++ w')) (hw : w ≠ []) {o : γ}
    (ho : o ∈ w'.flatMap Block.gap) : R.stops o = false := by
  obtain ⟨c, hc, ho⟩ := List.mem_flatMap.1 ho
  cases w with
  | nil => exact absurd rfl hw
  | cons d w => exact h c (List.mem_append_right w hc) o ho

/-! ## What a merge leaves -/

theorem MergeInto.crossing {c : Block β γ} (h : R.MergeInto c l l') (hcross : R.Crossing l') :
    R.Crossing l := by
  obtain ⟨pre, a, b, post, hstops, _⟩ := h
  obtain ⟨u, e, hin, hopen, hcell, ⟨o, ho, hloud⟩, hfit⟩ := hcross
  rcases infix_append_cons hin with hin | hin | ⟨w₁, w₂, hw, h₁, h₂⟩
  · exact ⟨u, e, infix_append_left _ hin, hopen, hcell, ⟨o, ho, hloud⟩, hfit⟩
  · exact ⟨u, e, infix_append_right pre (infix_append_right [a, b] hin), hopen, hcell,
      ⟨o, ho, hloud⟩, hfit⟩
  · rw [hw] at hopen hfit
    have hopen' := hopen.split hstops
    have haround : w₁ ++ a :: b :: w₂ <:+: pre ++ a :: b :: post := infix_of_around h₁ h₂
    rcases List.eq_nil_or_concat w₂ with rfl | ⟨w₂, f, rfl⟩
    · -- the element with an effect stands before one of the two cells
      obtain ⟨rfl, he⟩ := List.append_inj' hw rfl
      cases he
      rw [total_append, total_merged] at hfit
      rcases List.mem_append.1 ho with ho | ho
      · refine ⟨u, a, ?_, ?_, hcell, ⟨o, ho, hloud⟩, ?_⟩
        · exact List.IsInfix.trans ⟨[], [b], by simp⟩ haround
        · have hopen'' : R.Open ((u ++ [a]) ++ [b]) := by simpa using hopen'
          exact hopen''.of_prefix
        · rw [total_append]
          rw [total_cons] at hfit
          omega
      · refine ⟨u ++ [a], b, by simpa using haround, by simpa using hopen', ?_,
          ⟨o, ho, hloud⟩, ?_⟩
        · rw [List.flatMap_append]
          exact fun hnil => hcell (List.append_eq_nil_iff.1 hnil).1
        · rw [List.append_assoc, total_append]
          exact hfit
    · have hu : u ++ [e] = (w₁ ++ ⟨a.gap ++ b.gap, a.cell ++ b.cell⟩ :: w₂) ++ [f] := by
        rw [hw]
        simp
      obtain ⟨rfl, he⟩ := List.append_inj' hu rfl
      cases he
      have hlast : w₁ ++ a :: b :: w₂ ++ [e] = w₁ ++ a :: b :: w₂.concat e := by simp
      refine ⟨w₁ ++ a :: b :: w₂, e, hlast ▸ haround, hlast ▸ hopen', ?_, ⟨o, ho, hloud⟩, ?_⟩
      · simpa using hcell
      · rw [hlast]
        rwa [← total_around]

/-- Around two cells as one that fit together, a group is one around both. -/
theorem Group.split {w₁ w₂ : List (Block β γ)}
    (hlt : R.total [⟨a.gap ++ b.gap, a.cell ++ b.cell⟩] < R.limit)
    (h : R.Group (w₁ ++ ⟨a.gap ++ b.gap, a.cell ++ b.cell⟩ :: w₂)) :
    R.Group (w₁ ++ a :: b :: w₂) := by
  refine ⟨by simp, .inl ?_⟩
  rw [← total_around]
  rcases h.2 with h | h
  · exact h
  · rw [List.length_append, List.length_cons] at h
    have h₁ : w₁ = [] := List.length_eq_zero_iff.1 (by omega)
    have h₂ : w₂ = [] := List.length_eq_zero_iff.1 (by omega)
    rwa [h₁, h₂]

theorem MergeInto.total_lt {c : Block β γ} (h : R.MergeInto c l l') (hover : ¬ R.Overflowing l) :
    R.total [c] < R.limit := by
  obtain ⟨pre, a, b, post, hstops, hfits⟩ := h
  rw [total_merged]
  by_contra hge
  refine hover ⟨[a], [b], ⟨pre, post, by simp⟩, ?_, ⟨List.cons_ne_nil _ _, .inr rfl⟩,
    ⟨List.cons_ne_nil _ _, .inr rfl⟩, hfits, not_lt.1 hge⟩
  intro d hd
  rw [List.mem_singleton.1 hd]
  exact hstops

theorem MergeInto.overflowing {c : Block β γ} (h : R.MergeInto c l l')
    (hover : R.Overflowing l') : R.Overflowing l := by
  by_contra hnot
  have hlt := h.total_lt hnot
  obtain ⟨pre, a, b, post, hstops, _⟩ := h
  obtain ⟨u, v, hin, hopen, hu, hv, hfits, hlimit⟩ := hover
  refine hnot ?_
  rcases infix_append_cons hin with hin | hin | ⟨w₁, w₂, hw, h₁, h₂⟩
  · exact ⟨u, v, infix_append_left _ hin, hopen, hu, hv, hfits, hlimit⟩
  · exact ⟨u, v, infix_append_right pre (infix_append_right [a, b] hin), hopen, hu, hv, hfits,
      hlimit⟩
  · have haround : w₁ ++ a :: b :: w₂ <:+: pre ++ a :: b :: post := infix_of_around h₁ h₂
    rw [hw] at hopen hlimit
    have hopen' := hopen.split hstops
    rw [total_around] at hlimit
    -- the two cells as one are in the later group, or in the earlier one
    have hsplit : (∃ x, w₁ = u ++ x ∧ v = x ++ ⟨a.gap ++ b.gap, a.cell ++ b.cell⟩ :: w₂) ∨
        ∃ x, u = w₁ ++ ⟨a.gap ++ b.gap, a.cell ++ b.cell⟩ :: x ∧ w₂ = x ++ v := by
      rcases List.append_eq_append_iff.1 hw with ⟨x, hw₁, hv⟩ | ⟨x, hu, hx⟩
      · exact .inl ⟨x, hw₁, hv⟩
      · cases x with
        | nil => exact .inl ⟨[], by simpa using hu.symm, hx.symm⟩
        | cons d x =>
          obtain ⟨rfl, hw₂⟩ := List.cons_eq_cons.1 hx
          exact .inr ⟨x, hu, hw₂⟩
    rcases hsplit with ⟨x, rfl, rfl⟩ | ⟨x, rfl, rfl⟩
    · rw [List.append_assoc] at haround hopen' hlimit
      refine ⟨u, x ++ a :: b :: w₂, haround, hopen', hu, hv.split hlt, ?_, hlimit⟩
      rwa [← total_around]
    · have hassoc : w₁ ++ a :: b :: (x ++ v) = w₁ ++ a :: b :: x ++ v := by simp
      rw [hassoc] at haround hopen' hlimit
      refine ⟨w₁ ++ a :: b :: x, v, haround, hopen', hu.split hlt, hv, ?_, hlimit⟩
      rwa [← total_around]

/-! ## The effects -/

/-- Elements of cells that stand before other elements, counted for each of these. -/
@[grind =] def ahead : List (β ⊕ γ) → ℕ
  | [] => 0
  | .inl _ :: es => es.countP Sum.isRight + ahead es
  | .inr _ :: es => ahead es

theorem ahead_append (es fs : List (β ⊕ γ)) :
    ahead (es ++ fs) = ahead es + ahead fs + es.countP Sum.isLeft * fs.countP Sum.isRight := by
  induction es with
  | nil => simp [ahead]
  | cons e es ih =>
    cases e with
    | inl x =>
      rw [List.cons_append, ahead, ahead, ih, List.countP_append, List.countP_cons]
      simp only [Sum.isLeft_inl, ↓reduceIte]
      ring
    | inr o =>
      rw [List.cons_append, ahead, ahead, ih, List.countP_cons]
      simp

theorem ahead_inl (xs : List β) : ahead (xs.map (Sum.inl : β → β ⊕ γ)) = 0 := by
  induction xs with
  | nil => rfl
  | cons x xs ih => simp [ahead, ih]

theorem ahead_inr (os : List γ) : ahead (os.map (Sum.inr : γ → β ⊕ γ)) = 0 := by
  induction os with
  | nil => rfl
  | cons o os ih => simp [ahead, ih]

theorem countP_inl (xs : List β) :
    (xs.map (Sum.inl : β → β ⊕ γ)).countP Sum.isLeft = xs.length ∧
      (xs.map (Sum.inl : β → β ⊕ γ)).countP Sum.isRight = 0 := by
  induction xs with
  | nil => exact ⟨rfl, rfl⟩
  | cons x xs ih => simp [List.countP_cons, ih]

theorem countP_inr (os : List γ) :
    (os.map (Sum.inr : γ → β ⊕ γ)).countP Sum.isLeft = 0 ∧
      (os.map (Sum.inr : γ → β ⊕ γ)).countP Sum.isRight = os.length := by
  induction os with
  | nil => exact ⟨rfl, rfl⟩
  | cons o os ih => simp [List.countP_cons, ih]

/-- Moving cell elements across others takes them from ahead of each of these. -/
theorem ahead_move (es fs : List (β ⊕ γ)) (xs : List β) (os : List γ) :
    ahead (es ++ (xs.map .inl ++ (os.map .inr ++ fs))) =
      ahead (es ++ (os.map .inr ++ (xs.map .inl ++ fs))) + xs.length * os.length := by
  simp only [ahead_append, ahead_inl, ahead_inr, List.countP_append, countP_inl, countP_inr]
  ring

/-- The effects of a sequence, with those of two neighbours written out. -/
theorem effects_around (pre post : List (Block β γ)) (a b : Block β γ) :
    R.effects (pre ++ a :: b :: post) =
      (R.effects pre ++ (a.gap.filter fun o => !R.silent o).map .inr) ++
        (a.cell.map .inl ++ ((b.gap.filter fun o => !R.silent o).map .inr ++
          (b.cell.map .inl ++ R.effects post))) := by
  simp [effects]

theorem effects_merged (pre post : List (Block β γ)) (a b : Block β γ) :
    R.effects (pre ++ ⟨a.gap ++ b.gap, a.cell ++ b.cell⟩ :: post) =
      (R.effects pre ++ (a.gap.filter fun o => !R.silent o).map .inr) ++
        ((b.gap.filter fun o => !R.silent o).map .inr ++ (a.cell.map .inl ++
          (b.cell.map .inl ++ R.effects post))) := by
  simp [effects]

theorem Merge.ahead_le (h : R.Merge l l') : ahead (R.effects l') ≤ ahead (R.effects l) := by
  obtain ⟨c, pre, a, b, post, _, _⟩ := h
  rw [effects_around, effects_merged, ahead_move]
  exact Nat.le_add_right _ _

theorem ahead_lt_of_crossing (ha : a.cell ≠ []) (hb : ∃ o ∈ b.gap, R.silent o = false) :
    ahead (R.effects (pre ++ ⟨a.gap ++ b.gap, a.cell ++ b.cell⟩ :: post)) <
      ahead (R.effects (pre ++ a :: b :: post)) := by
  rw [effects_around, effects_merged, ahead_move]
  obtain ⟨o, ho, hloud⟩ := hb
  have hmem : o ∈ b.gap.filter fun o => !R.silent o :=
    List.mem_filter.2 ⟨ho, by rw [hloud]; rfl⟩
  have hpos := Nat.mul_pos (List.length_pos_of_ne_nil ha) (List.length_pos_of_mem hmem)
  omega

/-- **A merge of a clean sequence** keeps the effects and stays below the limit. -/
theorem MergeInto.clean {c : Block β γ} (h : R.MergeInto c l l') (hclean : R.Clean l) :
    R.Clean l' ∧ R.effects l' = R.effects l ∧ R.total [c] < R.limit := by
  have hlt := h.total_lt hclean.overflowing
  refine ⟨⟨fun hcross => hclean.crossing (h.crossing hcross),
    fun hover => hclean.overflowing (h.overflowing hover)⟩, ?_, hlt⟩
  obtain ⟨pre, a, b, post, hstops, _⟩ := h
  rw [effects_around, effects_merged]
  by_cases ha : a.cell = []
  · rw [ha]
    simp
  · have hsilent : b.gap.filter (fun o => !R.silent o) = [] := by
      rw [List.filter_eq_nil_iff]
      intro o ho hloud
      refine hclean.crossing ⟨[a], b, ⟨pre, post, by simp⟩, ?_, by simpa using ha,
        ⟨o, ho, by simpa using hloud⟩, ?_⟩
      · intro d hd
        rw [List.mem_singleton.1 hd]
        exact hstops
      · rwa [total_merged] at hlt
    rw [hsilent]
    simp

/-! ## The condition is exact -/

/-- Cells that fit together become one. -/
theorem exists_collapse (pre post : List (Block β γ)) (hne : w ≠ []) (hopen : R.Open w)
    (hlt : R.total w < R.limit ∨ w.length = 1) :
    ∃ c, Relation.ReflTransGen R.Merge (pre ++ w ++ post) (pre ++ c :: post) ∧
      c.gap = w.flatMap Block.gap ∧ c.cell = w.flatMap Block.cell := by
  induction hn : w.length generalizing w with
  | zero => exact absurd (List.length_eq_zero_iff.1 hn) hne
  | succ n ih =>
    match w, hn with
    | [a], _ => exact ⟨a, by rw [List.append_assoc]; exact .refl, by simp, by simp⟩
    | a :: b :: w, hn =>
      have hlt : R.total (a :: b :: w) < R.limit := hlt.resolve_right (by simp)
      have hstops : ∀ o ∈ b.gap, R.stops o = false := hopen b List.mem_cons_self
      have hfits : R.fits (R.total [a]) (R.total [b]) := by
        refine R.fits_of_lt _ _ (lt_of_le_of_lt ?_ hlt)
        have hcons : R.total (a :: b :: w) = R.total [a] + (R.total [b] + R.total w) := by
          rw [total_cons, total_cons (b := b)]
        omega
      have htotal : R.total (⟨a.gap ++ b.gap, a.cell ++ b.cell⟩ :: w) < R.limit :=
        (total_around [] w a b).trans_lt hlt
      obtain ⟨c, hrun, hgap, hcell⟩ := ih
        (List.cons_ne_nil ⟨a.gap ++ b.gap, a.cell ++ b.cell⟩ w) (fun d hd => hopen d (List.mem_cons_of_mem b hd)) (.inl htotal)
        (by simpa using hn)
      have hstep := MergeInto.mk pre a b (w ++ post) hstops hfits
      refine ⟨c, .head ⟨⟨a.gap ++ b.gap, a.cell ++ b.cell⟩, ?_⟩ hrun, by simpa using hgap,
        by simpa using hcell⟩
      simpa using hstep

theorem total_eq_of_cell {c : Block β γ} (hcell : c.cell = w.flatMap Block.cell) :
    R.total [c] = R.total w := by
  simp [total, hcell, List.flatMap, List.map_flatten, List.sum_flatten, Function.comp_def]

theorem Merge.length_lt (h : R.Merge l l') : l'.length < l.length := by
  obtain ⟨c, pre, a, b, post, _, _⟩ := h
  simp

/-- Merges come to an end. -/
theorem exists_merged (R : MergeRules β γ) (l : List (Block β γ)) :
    ∃ l', RewritesTo R.Merge l l' :=
  exists_rewritesTo List.length (fun _ _ => Merge.length_lt) l

theorem Crossing.exists_run (h : R.Crossing l) :
    ∃ l', RewritesTo R.Merge l l' ∧ R.effects l' ≠ R.effects l := by
  obtain ⟨u, b, ⟨p, q, rfl⟩, hopen, hcell, hloud, hlt⟩ := h
  rw [total_append] at hlt
  have hne : u ≠ [] := fun h => hcell (by rw [h]; rfl)
  obtain ⟨c, hrun, _, hc⟩ := exists_collapse p (b :: q) hne hopen.of_prefix
    (.inl (by omega : R.total u < R.limit))
  have hmerge : R.Merge (p ++ c :: b :: q) (p ++ ⟨c.gap ++ b.gap, c.cell ++ b.cell⟩ :: q) := by
    refine ⟨_, .mk p c b q (fun o ho => hopen.gaps hne (by simpa using ho)) ?_⟩
    refine R.fits_of_lt _ _ ?_
    rwa [total_eq_of_cell hc]
  obtain ⟨l', hl', hnormal⟩ := exists_merged R (p ++ ⟨c.gap ++ b.gap, c.cell ++ b.cell⟩ :: q)
  have hall : Relation.ReflTransGen R.Merge (p ++ (u ++ [b]) ++ q) l' := by
    have : p ++ (u ++ [b]) ++ q = p ++ u ++ b :: q := by simp
    rw [this]
    exact (hrun.tail hmerge).trans hl'
  refine ⟨l', ⟨hall, hnormal⟩, fun heq => ?_⟩
  have hle : ∀ {x y}, Relation.ReflTransGen R.Merge x y →
      ahead (R.effects y) ≤ ahead (R.effects x) := fun hxy =>
    le_of_step (f := fun x => ahead (R.effects x)) (fun _ _ => Merge.ahead_le) hxy
  have hlast := hle hl'
  have hfirst := hle hrun
  have hcross : ahead (R.effects (p ++ ⟨c.gap ++ b.gap, c.cell ++ b.cell⟩ :: q)) <
      ahead (R.effects (p ++ c :: b :: q)) := ahead_lt_of_crossing (hc ▸ hcell) hloud
  rw [heq] at hlast
  have : p ++ (u ++ [b]) ++ q = p ++ u ++ b :: q := by simp
  rw [this] at hlast
  omega

theorem Overflowing.exists_run (h : R.Overflowing l) :
    ∃ l₁ c l₂, Relation.ReflTransGen R.Merge l l₁ ∧ R.MergeInto c l₁ l₂ ∧
      R.limit ≤ R.total [c] := by
  obtain ⟨u, v, ⟨p, q, rfl⟩, hopen, hu, hv, hfits, hlimit⟩ := h
  obtain ⟨c, hrunu, _, hc⟩ := exists_collapse p (v ++ q) hu.1 hopen.of_prefix hu.2
  obtain ⟨d, hrunv, hgap, hd⟩ := exists_collapse (p ++ [c]) q hv.1 hopen.of_suffix hv.2
  rw [← total_eq_of_cell hc, ← total_eq_of_cell hd] at hfits
  have hmerge := MergeInto.mk p c d q (fun o ho => hopen.gaps hu.1 (hgap ▸ ho)) hfits
  refine ⟨_, _, _, ?_, hmerge, ?_⟩
  · have hrun := hrunu.trans (by simpa using hrunv)
    simpa using hrun
  · rwa [total_merged, total_cons, total_eq_of_cell hc, total_eq_of_cell hd, ← total_append]

/-- **Exactly the clean sequences** keep their effects in every run of merges to its end, and stay
below the limit in every merge. -/
theorem clean_iff : R.Clean l ↔
    (∀ l', RewritesTo R.Merge l l' → R.effects l' = R.effects l) ∧
      ∀ l₁ c l₂, Relation.ReflTransGen R.Merge l l₁ → R.MergeInto c l₁ l₂ →
        R.total [c] < R.limit := by
  constructor
  · intro hclean
    have hrun : ∀ l', Relation.ReflTransGen R.Merge l l' →
        R.Clean l' ∧ R.effects l' = R.effects l := by
      intro l' hl'
      refine keeps_of_step (P := fun x => R.Clean x ∧ R.effects x = R.effects l) ?_ hl'
        ⟨hclean, rfl⟩
      rintro x y ⟨c, hxy⟩ ⟨hx, heq⟩
      obtain ⟨hy, hsame, _⟩ := hxy.clean hx
      exact ⟨hy, hsame.trans heq⟩
    exact ⟨fun l' hl' => (hrun l' hl'.1).2, fun l₁ c l₂ hl₁ hmerge =>
      (hmerge.clean (hrun l₁ hl₁).1).2.2⟩
  · rintro ⟨heffects, htotal⟩
    constructor
    · intro hcross
      obtain ⟨l', hl', hne⟩ := hcross.exists_run
      exact hne (heffects l' hl')
    · intro hover
      obtain ⟨l₁, c, l₂, hl₁, hmerge, hge⟩ := hover.exists_run
      exact absurd (htotal l₁ c l₂ hl₁ hmerge) (not_lt.2 hge)

end MergeRules

end MlirAie.Lib
