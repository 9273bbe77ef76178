import Mathlib

/-!
# Covering with the fewest sets

A branch-and-bound search: while anything is left to cover, one element of it is picked and each set
that covers it is tried. A branch whose covers could at best be as large as the best one found is
cut.

* `minCover_sel`: what it finds are sets that cover what was left;
* **`minCover_le`**: no cover of what was left is smaller;
* `minCover_start`: what it finds, whatever bound it starts from.
-/

namespace MlirAie.Lib

variable {α ι : Type*}

/-- The smallest cover found so far, and its size. -/
structure Best (α : Type*) where
  size : ℕ
  sel : List α

/-- The search for a cover of the elements left; each step covers one more of them. -/
def minCover (covers : α → ι → Bool) (pick : List ι → ι) (sets : List α) :
    ℕ → List ι → List α → Best α → Best α
  | _, [], sel, best => if sel.length < best.size then ⟨sel.length, sel⟩ else best
  | 0, _ :: _, _, best => best
  | fuel + 1, x :: left, sel, best =>
    if best.size ≤ sel.length + 1 then best
    else sets.foldl (fun best c =>
      if covers c (pick (x :: left)) then
        minCover covers pick sets fuel ((x :: left).filter fun y => !covers c y) (sel ++ [c]) best
      else best) best

attribute [local simp] minCover

section Fold

variable {F : Best α → α → Best α} {l : List α} {best : Best α} {N : ℕ}

theorem foldl_size_le (hF : ∀ b c, (F b c).size ≤ b.size) (l : List α) (best : Best α) :
    (l.foldl F best).size ≤ best.size := by
  induction l generalizing best with
  | nil => exact le_rfl
  | cons c l ih => exact (ih _).trans (hF best c)

theorem foldl_size_le_of_mem (hF : ∀ b c, (F b c).size ≤ b.size) {c : α} (hc : c ∈ l)
    (h : ∀ b, (F b c).size ≤ N) : (l.foldl F best).size ≤ N := by
  induction l generalizing best with
  | nil => cases hc
  | cons d l ih =>
    rcases List.mem_cons.1 hc with rfl | hc
    · exact (foldl_size_le hF l _).trans (h best)
    · exact ih hc

end Fold

variable {covers : α → ι → Bool} {pick : List ι → ι} {sets : List α} {fuel : ℕ} {left : List ι}
  {sel : List α} {best : Best α}

theorem minCover_size_le (fuel : ℕ) (left : List ι) (sel : List α) (best : Best α) :
    (minCover covers pick sets fuel left sel best).size ≤ best.size := by
  induction fuel generalizing left sel best with
  | zero =>
    cases left with
    | nil =>
      rw [minCover]
      split_ifs with h
      exacts [h.le, le_rfl]
    | cons x left => exact le_rfl
  | succ fuel ih =>
    cases left with
    | nil =>
      rw [minCover]
      split_ifs with h
      exacts [h.le, le_rfl]
    | cons x left =>
      rw [minCover]
      split_ifs
      · exact le_rfl
      · refine foldl_size_le (fun b c => ?_) sets best
        split_ifs
        exacts [ih _ _ b, le_rfl]

/-- Dropping what one set of a cover covers, the other sets cover the rest. -/
theorem covers_rest {C D : List α} {c : α} (h : ∀ x ∈ left, ∃ d ∈ C ++ c :: D, covers d x) :
    ∀ x ∈ left.filter fun y => !covers c y, ∃ d ∈ C ++ D, covers d x := by
  intro x hx
  obtain ⟨hx, hcx⟩ := List.mem_filter.1 hx
  obtain ⟨d, hd, hdx⟩ := h x hx
  refine ⟨d, ?_, hdx⟩
  rcases List.mem_append.1 hd with hd | hd
  · exact List.mem_append_left D hd
  · rcases List.mem_cons.1 hd with rfl | hd
    · simp [hdx] at hcx
    · exact List.mem_append_right C hd

/-- **No cover of what was left is smaller** than the best one found. -/
theorem minCover_le (hpick : ∀ l ≠ [], pick l ∈ l) (hfuel : left.length ≤ fuel) {C : List α}
    (hC : C ⊆ sets) (hcovers : ∀ x ∈ left, ∃ c ∈ C, covers c x) :
    (minCover covers pick sets fuel left sel best).size ≤ sel.length + C.length := by
  induction fuel generalizing left sel best C with
  | zero =>
    obtain rfl := List.length_eq_zero_iff.1 (Nat.le_zero.1 hfuel)
    rw [minCover]
    split_ifs with h
    · exact Nat.le_add_right _ _
    · omega
  | succ fuel ih =>
    cases left with
    | nil =>
      rw [minCover]
      split_ifs with h
      · exact Nat.le_add_right _ _
      · omega
    | cons x left =>
      have hmem := hpick (x :: left) (List.cons_ne_nil x left)
      obtain ⟨c, hc, hcx⟩ := hcovers _ hmem
      obtain ⟨A, B, rfl⟩ := List.append_of_mem hc
      rw [minCover]
      split_ifs with hcut
      · simp only [List.length_append, List.length_cons]
        omega
      · refine foldl_size_le_of_mem (fun b d => ?_) (hC hc) fun b => ?_
        · split_ifs
          exacts [minCover_size_le _ _ _ b, le_rfl]
        · rw [if_pos hcx]
          have hfewer : ((x :: left).filter fun y => !covers c y).length ≤ fuel := by
            have hlt := (List.length_filter_lt_length_iff_exists (p := fun y => !covers c y)).2
              ⟨pick (x :: left), hmem, by simp [hcx]⟩
            omega
          have hrest : A ++ B ⊆ sets := by
            refine fun d hd => hC ?_
            rcases List.mem_append.1 hd with hd | hd
            · exact List.mem_append_left _ hd
            · exact List.mem_append_right _ (List.mem_cons_of_mem c hd)
          refine (ih hfewer hrest (covers_rest hcovers)).trans_eq ?_
          simp only [List.length_append, List.length_cons, List.length_nil]
          omega

/-- `b` is the best cover so far, or the sets selected and more that cover what is left. -/
def Found (covers : α → ι → Bool) (sets : List α) (left : List ι) (sel : List α)
    (best b : Best α) : Prop :=
  b = best ∨ b.sel.length = b.size ∧ ∃ C ⊆ sets, (∀ x ∈ left, ∃ c ∈ C, covers c x) ∧
    b.sel = sel ++ C

theorem minCover_sel (fuel : ℕ) (left : List ι) (sel : List α) (best : Best α) :
    Found covers sets left sel best (minCover covers pick sets fuel left sel best) := by
  have hnil : ∀ (sel : List α) (best : Best α), Found covers sets [] sel best
      (if sel.length < best.size then ⟨sel.length, sel⟩ else best) := by
    intro sel best
    split_ifs
    · exact .inr ⟨rfl, [], List.nil_subset _, fun x hx => absurd hx List.not_mem_nil,
        (List.append_nil sel).symm⟩
    · exact .inl rfl
  induction fuel generalizing left sel best with
  | zero =>
    cases left with
    | nil => exact hnil sel best
    | cons x left => exact .inl rfl
  | succ fuel ih =>
    cases left with
    | nil => exact hnil sel best
    | cons x left =>
      rw [minCover]
      split_ifs
      · exact .inl rfl
      · refine List.foldlRecOn (motive := Found covers sets (x :: left) sel best) sets _ (.inl rfl)
          fun b hb c hc => ?_
        split_ifs with hcx
        · rcases ih ((x :: left).filter fun y => !covers c y) (sel ++ [c]) b with h |
            ⟨hsize, C, hC, hcovers, hsel⟩
          · rw [h]
            exact hb
          · refine .inr ⟨hsize, c :: C, List.cons_subset.2 ⟨hc, hC⟩, fun y hy => ?_, ?_⟩
            · by_cases hcy : covers c y = true
              · exact ⟨c, List.mem_cons_self, hcy⟩
              · obtain ⟨d, hd, hdy⟩ := hcovers y (List.mem_filter.2 ⟨hy, by simp [hcy]⟩)
                exact ⟨d, List.mem_cons_of_mem c hd, hdy⟩
            · rw [hsel, List.append_assoc, List.singleton_append]
        · exact hb

/-! ## The bound it starts from -/

/-- The smaller of the best cover so far and another one, if there is one. -/
def improve (f : Option (Best α)) (best : Best α) : Best α :=
  f.elim best fun f => if f.size < best.size then f else best

/-- Improving twice. -/
theorem exists_improve_improve {n : ℕ} (f g : Option (Best α)) (hf : ∀ b ∈ f, n ≤ b.size)
    (hg : ∀ b ∈ g, n ≤ b.size) : ∃ h : Option (Best α), (∀ b ∈ h, n ≤ b.size) ∧
      ∀ best, improve g (improve f best) = improve h best := by
  cases f with
  | none => exact ⟨g, hg, fun _ => rfl⟩
  | some f =>
    cases g with
    | none => exact ⟨some f, hf, fun _ => rfl⟩
    | some g =>
      by_cases hlt : g.size < f.size
      · refine ⟨some g, hg, fun best => ?_⟩
        simp only [improve, Option.elim_some]
        split_ifs <;> first | rfl | omega
      · refine ⟨some f, hf, fun best => ?_⟩
        simp only [improve, Option.elim_some]
        split_ifs <;> first | rfl | omega

theorem exists_minCover_eq_improve (covers : α → ι → Bool) (pick : List ι → ι) (sets : List α)
    (fuel : ℕ) (left : List ι) (sel : List α) :
    ∃ f : Option (Best α), (∀ b ∈ f, sel.length ≤ b.size) ∧
      ∀ best, minCover covers pick sets fuel left sel best = improve f best := by
  have hnil : ∃ f : Option (Best α), (∀ b ∈ f, sel.length ≤ b.size) ∧
      ∀ best : Best α, (if sel.length < best.size then ⟨sel.length, sel⟩ else best) =
        improve f best := by
    refine ⟨some ⟨sel.length, sel⟩, fun b hb => ?_, fun _ => rfl⟩
    rw [← Option.mem_some_iff.1 hb]
  induction fuel generalizing left sel with
  | zero =>
    cases left with
    | nil => simpa only [minCover] using hnil
    | cons x left => exact ⟨none, by simp, fun _ => rfl⟩
  | succ fuel ih =>
    cases left with
    | nil => simpa only [minCover] using hnil
    | cons x left =>
      have hstep : ∀ c : α, ∃ f : Option (Best α), (∀ b ∈ f, sel.length + 1 ≤ b.size) ∧
          ∀ best, (if covers c (pick (x :: left)) then
            minCover covers pick sets fuel ((x :: left).filter fun y => !covers c y) (sel ++ [c])
              best else best) = improve f best := by
        intro c
        split_ifs
        · obtain ⟨f, hf, heq⟩ := ih ((x :: left).filter fun y => !covers c y) (sel ++ [c])
            ⟨some ⟨(sel ++ [c]).length, sel ++ [c]⟩,
              fun b hb => by rw [← Option.mem_some_iff.1 hb], fun _ => rfl⟩
          exact ⟨f, fun b hb => by simpa using hf b hb, heq⟩
        · exact ⟨none, by simp, fun _ => rfl⟩
      have hfold : ∀ l : List α, ∃ f : Option (Best α), (∀ b ∈ f, sel.length + 1 ≤ b.size) ∧
          ∀ best, l.foldl (fun best c => if covers c (pick (x :: left)) then
            minCover covers pick sets fuel ((x :: left).filter fun y => !covers c y) (sel ++ [c])
              best else best) best = improve f best := by
        intro l
        induction l with
        | nil => exact ⟨none, by simp, fun _ => rfl⟩
        | cons c l ihl =>
          obtain ⟨f, hf, hfeq⟩ := hstep c
          obtain ⟨g, hg, hgeq⟩ := ihl
          obtain ⟨h, hh, hheq⟩ := exists_improve_improve f g hf hg
          refine ⟨h, hh, fun best => ?_⟩
          rw [List.foldl_cons, hfeq, hgeq, hheq]
      obtain ⟨f, hf, hfeq⟩ := hfold sets
      refine ⟨f, fun b hb => (Nat.le_succ _).trans (hf b hb), fun best => ?_⟩
      rw [minCover]
      split_ifs with hcut
      · -- nothing with one set more is smaller
        cases f with
        | none => rfl
        | some b => exact (if_neg (by have := hf b rfl; omega)).symm
      · exact hfeq best

/-- **Whatever bound above the number of elements the search starts from**, it finds the same. -/
theorem minCover_start (hpick : ∀ l ≠ [], pick l ∈ l) (hfuel : left.length ≤ fuel) {m n : ℕ}
    (hm : left.length < m) (hn : left.length < n) :
    (minCover covers pick sets fuel left [] ⟨m, []⟩).sel =
      (minCover covers pick sets fuel left [] ⟨n, []⟩).sel := by
  obtain ⟨f, -, heq⟩ :=
    exists_minCover_eq_improve covers pick sets fuel left []
  rw [heq, heq]
  cases f with
  | none => rfl
  | some f =>
    have hsize : f.size ≤ left.length := by
      have hf : minCover covers pick sets fuel left [] ⟨f.size + 1, []⟩ = f := by
        rw [heq]
        exact if_pos (Nat.lt_succ_self _)
      have hfound : Found covers sets left [] ⟨f.size + 1, []⟩
          (minCover covers pick sets fuel left [] ⟨f.size + 1, []⟩) := minCover_sel _ _ _ _
      rw [hf] at hfound
      rcases hfound with h | ⟨-, C, hC, hcovers, -⟩
      · exact absurd (congrArg Best.size h) (Nat.ne_of_lt (Nat.lt_succ_self _))
      · -- one set for each element, at most
        choose g hg hgx using hcovers
        have hle : (minCover covers pick sets fuel left [] ⟨f.size + 1, []⟩).size ≤
            ([] : List α).length + (left.attach.map fun x => g x.1 x.2).length := by
          refine minCover_le hpick hfuel (fun c hc => ?_) fun x hx =>
            ⟨g x hx, List.mem_map.2 ⟨⟨x, hx⟩, List.mem_attach left _, rfl⟩, hgx x hx⟩
          obtain ⟨x, -, rfl⟩ := List.mem_map.1 hc
          exact hC (hg x.1 x.2)
        rw [hf, List.length_map, List.length_attach, List.length_nil, Nat.zero_add] at hle
        exact hle
    show (if f.size < m then f else _).sel = (if f.size < n then f else _).sel
    rw [if_pos (by omega), if_pos (by omega)]

end MlirAie.Lib
