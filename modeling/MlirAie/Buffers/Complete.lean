import MlirAie.Buffers.Compaction
import MlirAie.Lib.Extremes

/-!
# The compaction search is complete

A layout slides down: the lowest buffer of the gap may sit where the search puts it first, and the
rest of the layout still lies above it. Buffers of one class can swap their addresses.

* `First.swap`: buffers of one class come first in the same layouts;
* `place_complete`: a call that fails leaves no layout above its address;
* **`run_complete`**: a search that fails within its budget has no layout.
-/

namespace MlirAie.Buffers

open MlirAie.Lib

/-! ## Alignment and banks -/

theorem le_alignTo {align : ℤ} (h : 0 < align) (value : ℤ) : value ≤ alignTo value align := by
  have hdiv := Int.mul_ediv_add_emod (value + align - 1) align
  have hmod := Int.emod_lt_of_pos (value + align - 1) h
  unfold alignTo
  rw [mul_comm] at hdiv
  omega

theorem alignTo_le {align value a : ℤ} (h : 0 < align) (hdvd : align ∣ a) (hle : value ≤ a) :
    alignTo value align ≤ a := by
  obtain ⟨k, rfl⟩ := hdvd
  have hlt : (value + align - 1) / align < k + 1 := by
    rw [Int.ediv_lt_iff_lt_mul h, add_mul, mul_comm k]
    omega
  unfold alignTo
  rw [mul_comm align k]
  exact mul_le_mul_of_nonneg_right (by omega) h.le

theorem inBank_iff {ctx : BankAwareContext} {a : ℤ} :
    ctx.inBank a = true ↔ ∃ i < ctx.numBanks,
      ctx.bankSize * i ≤ a ∧ a < ctx.bankSize * i + ctx.bankSize := by
  unfold BankAwareContext.inBank
  rw [List.any_eq_true]
  refine exists_congr fun i => ?_
  rw [List.mem_range, Bool.and_eq_true, decide_eq_true_iff, decide_eq_true_iff]
  rfl

theorem inBank_of_le {ctx : BankAwareContext} {a b : ℤ} (ha : ctx.inBank a = true) (hb : 0 ≤ b)
    (hle : b ≤ a) : ctx.inBank b = true := by
  obtain ⟨i, hi, hlo, hhi⟩ := inBank_iff.1 ha
  have hsize : 0 < ctx.bankSize := by omega
  have hquot : b / ctx.bankSize ≤ i := by
    apply Int.le_of_lt_add_one
    rw [Int.ediv_lt_iff_lt_mul hsize, add_mul, mul_comm (i : ℤ)]
    omega
  have hnonneg := Int.ediv_nonneg hb hsize.le
  refine inBank_iff.2 ⟨(b / ctx.bankSize).toNat, by omega, ?_⟩
  rw [Int.toNat_of_nonneg hnonneg]
  have hdiv := Int.mul_ediv_add_emod b ctx.bankSize
  have hmod := Int.emod_lt_of_pos b hsize
  have hmod' := Int.emod_nonneg b hsize.ne'
  omega

/-! ## Classes -/

theorem classesOf_eq {κ : Type} [DecidableEq κ] (ks seen : List κ) :
    classesOf ks seen (seen.map seen.idxOf) = (seen ++ ks).map (seen ++ ks).idxOf := by
  induction ks generalizing seen with
  | nil => rw [classesOf, List.append_nil]
  | cons k ks ih =>
    have hcls : ((seen.map seen.idxOf)[seen.idxOf k]?).getD seen.length =
        (seen ++ [k]).idxOf k := by
      by_cases hk : k ∈ seen
      · rw [List.getElem?_map, List.getElem?_eq_getElem (List.idxOf_lt_length_of_mem hk),
          List.getElem_idxOf, List.idxOf_append_of_mem hk]
        rfl
      · rw [List.idxOf_append_of_notMem hk, List.idxOf_of_notMem hk,
          List.getElem?_eq_none (by rw [List.length_map])]
        simp
    have hseen : seen.map seen.idxOf = seen.map (seen ++ [k]).idxOf :=
      List.map_congr_left fun x hx => (List.idxOf_append_of_mem hx).symm
    have hsnoc : seen.map (seen ++ [k]).idxOf ++ [(seen ++ [k]).idxOf k] =
        (seen ++ [k]).map (seen ++ [k]).idxOf := by
      rw [List.map_append]
      rfl
    rw [classesOf, hcls, hseen, hsnoc, ih, List.append_assoc]
    rfl

theorem classesOf_inj {κ : Type} [DecidableEq κ] {ks : List κ} {i j : ℕ} (hi : i < ks.length)
    (hj : j < ks.length)
    (h : (classesOf ks [] []).getD i i = (classesOf ks [] []).getD j j) : ks[i] = ks[j] := by
  have hks := classesOf_eq ks []
  rw [List.map_nil, List.nil_append] at hks
  rw [hks, List.getD_eq_getElem _ _ (by rwa [List.length_map]),
    List.getD_eq_getElem _ _ (by rwa [List.length_map]), List.getElem_map, List.getElem_map] at h
  exact (List.idxOf_inj (List.getElem_mem hi)).1 h

namespace CompactionSearch

/-! ## Layouts -/

/-- Addresses for the buffers left: aligned, inside one free run and one allowed range, with their
starts in a bank, and disjoint. -/
structure Layout (S : CompactionSearch) (left : List ℕ) (a : ℕ → ℤ) : Prop where
  aligned : ∀ i ∈ left, S.align i ∣ a i
  banked : ∀ i ∈ left, S.ctx.inBank (a i) = true
  inGap : ∀ i ∈ left, ∃ gap ∈ S.gaps, gap.Covers (a i) (S.size i)
  inRange : ∀ i ∈ left, ∃ range ∈ S.rangesOf i, range.Covers (a i) (S.size i)
  separate : Separate left a S.size

/-- A layout of the buffers left at or above an address. -/
def LayoutFrom (S : CompactionSearch) (start : ℤ) (left : List ℕ) : Prop :=
  ∃ a, S.Layout left a ∧ ∀ i ∈ left, start ≤ a i

/-- What the constructor provides: free runs from low to high, and classes of equal buffers. -/
structure WellFormed (S : CompactionSearch) : Prop where
  sorted : S.gaps.Pairwise fun g h => g.stop ≤ h.start
  nonneg : ∀ gap ∈ S.gaps, 0 ≤ gap.start ∧ 0 ≤ gap.size
  aligned : ∀ i, 0 < S.align i
  classes : ∀ i ∈ S.nonempty, ∀ j ∈ S.nonempty, S.classOf i = S.classOf j →
    S.size i = S.size j ∧ S.align i = S.align j ∧ S.rangesOf i = S.rangesOf j

variable {S : CompactionSearch} {gap : MemoryRun} {above : List MemoryRun} {start : ℤ}
  {left : List ℕ} {i j : ℕ} {a : ℕ → ℤ}

theorem Layout.erase (h : S.Layout left a) (i : ℕ) : S.Layout (left.erase i) a where
  aligned j hj := h.aligned j (List.mem_of_mem_erase hj)
  banked j hj := h.banked j (List.mem_of_mem_erase hj)
  inGap j hj := h.inGap j (List.mem_of_mem_erase hj)
  inRange j hj := h.inRange j (List.mem_of_mem_erase hj)
  separate j hj k hk := h.separate j (List.mem_of_mem_erase hj) k (List.mem_of_mem_erase hk)

/-! ## The lowest address -/

theorem lowestIn_eq_some {range : MemoryRun} {b : ℤ} :
    S.lowestIn i gap start range = some b ↔
      alignTo (max start range.start) (S.align i) = b ∧ b + S.size i ≤ min gap.stop range.stop ∧
        S.ctx.inBank b = true := by
  unfold lowestIn
  simp only [Bool.and_eq_true, decide_eq_true_eq]
  constructor
  · intro h
    split_ifs at h with hc
    obtain rfl := Option.some.inj h
    exact ⟨rfl, hc⟩
  · rintro ⟨rfl, hc⟩
    exact if_pos hc

/-- The step of the fold in `lowest`. -/
def better (best cand : Option ℤ) : Option ℤ :=
  match cand, best with
  | some a, none => some a
  | some a, some b => if a < b then some a else some b
  | none, best => best

theorem lowest_eq (i : ℕ) (gap : MemoryRun) (start : ℤ) :
    S.lowest i gap start = ((S.rangesOf i).map (S.lowestIn i gap start)).foldl better none := by
  rw [List.foldl_map]
  unfold lowest
  congr 1

theorem foldl_better (cands : List (Option ℤ)) (best : Option ℤ) :
    (∀ b, cands.foldl better best = some b → some b = best ∨ some b ∈ cands) ∧
    (∀ c, some c ∈ best :: cands → ∃ b, cands.foldl better best = some b ∧ b ≤ c) := by
  induction cands generalizing best with
  | nil =>
    refine ⟨fun b h => Or.inl h.symm, fun c hc => ?_⟩
    rw [List.mem_singleton] at hc
    exact ⟨c, hc.symm, le_rfl⟩
  | cons cand cands ih =>
    obtain ⟨hmem, hle⟩ := ih (better best cand)
    have hchoice : better best cand = best ∨ better best cand = cand := by
      unfold better
      cases cand with
      | none => exact Or.inl rfl
      | some a =>
        cases best with
        | none => exact Or.inr rfl
        | some b =>
          by_cases hab : a < b
          · exact Or.inr (if_pos hab)
          · exact Or.inl (if_neg hab)
    refine ⟨fun b h => ?_, fun c hc => ?_⟩
    · rcases hmem b h with h | h
      · rcases hchoice with hb | hb
        · exact Or.inl (h.trans hb)
        · exact Or.inr (List.mem_cons.2 (Or.inl (h.trans hb)))
      · exact Or.inr (List.mem_cons_of_mem _ h)
    · rcases List.mem_cons.1 hc with hbest | hc
      · obtain ⟨m, hm, hmc⟩ : ∃ m, better best cand = some m ∧ m ≤ c := by
          subst hbest
          cases cand with
          | none => exact ⟨c, rfl, le_rfl⟩
          | some a =>
            by_cases hac : a < c
            · exact ⟨a, if_pos hac, hac.le⟩
            · exact ⟨c, if_neg hac, le_rfl⟩
        obtain ⟨b, hb, hbm⟩ := hle m (List.mem_cons.2 (Or.inl hm.symm))
        exact ⟨b, hb, hbm.trans hmc⟩
      · rcases List.mem_cons.1 hc with hcand | hc
        · obtain ⟨m, hm, hmc⟩ : ∃ m, better best cand = some m ∧ m ≤ c := by
            subst hcand
            cases best with
            | none => exact ⟨c, rfl, le_rfl⟩
            | some b =>
              by_cases hcb : c < b
              · exact ⟨c, if_pos hcb, le_rfl⟩
              · exact ⟨b, if_neg hcb, not_lt.1 hcb⟩
          obtain ⟨b, hb, hbm⟩ := hle m (List.mem_cons.2 (Or.inl hm.symm))
          exact ⟨b, hb, hbm.trans hmc⟩
        · exact hle c (List.mem_cons_of_mem _ hc)

theorem lowest_bounds (hpos : 0 < S.align i) {b : ℤ} (h : S.lowest i gap start = some b) :
    start ≤ b ∧ b + S.size i ≤ gap.stop := by
  rw [lowest_eq] at h
  rcases (foldl_better _ _).1 b h with h | h
  · cases h
  · obtain ⟨range, _, hr⟩ := List.mem_map.1 h
    obtain ⟨rfl, hfit, _⟩ := lowestIn_eq_some.1 hr
    exact ⟨(le_max_left _ _).trans (le_alignTo hpos _), hfit.trans (min_le_left _ _)⟩

/-- **The search puts a buffer no higher than a layout does.** -/
theorem lowest_of_layout (hpos : 0 < S.align i) (hstart : 0 ≤ start) (hl : S.Layout left a)
    (hi : i ∈ left) (hle : start ≤ a i) (hcov : gap.Covers (a i) (S.size i)) :
    ∃ b, S.lowest i gap start = some b ∧ b ≤ a i := by
  obtain ⟨range, hrange, hin⟩ := hl.inRange i hi
  have hlow : alignTo (max start range.start) (S.align i) ≤ a i :=
    alignTo_le hpos (hl.aligned i hi) (max_le hle hin.1)
  have hnonneg : 0 ≤ alignTo (max start range.start) (S.align i) :=
    (hstart.trans (le_max_left _ _)).trans (le_alignTo hpos _)
  have hsome : S.lowestIn i gap start range = some _ := lowestIn_eq_some.2
    ⟨rfl, (add_le_add_left hlow _).trans (le_min hcov.2 hin.2),
      inBank_of_le (hl.banked i hi) hnonneg hlow⟩
  obtain ⟨b, hb, hba⟩ := (foldl_better _ none).2 _
    (List.mem_cons_of_mem _ (List.mem_map.2 ⟨range, hrange, hsome⟩))
  exact ⟨b, (lowest_eq i gap start).trans hb, hba.trans hlow⟩

/-! ## The first buffer of a layout -/

/-- Buffer `i` is the lowest one of a layout, and lies in the gap. -/
def First (S : CompactionSearch) (gap : MemoryRun) (start : ℤ) (left : List ℕ) (i : ℕ) : Prop :=
  ∃ a, S.Layout left a ∧ (∀ j ∈ left, start ≤ a j) ∧ (∀ j ∈ left, a i ≤ a j) ∧
    gap.Covers (a i) (S.size i)

/-- **Buffers of one class come first in the same layouts.** -/
theorem First.swap (hS : S.WellFormed) (hleft : left ⊆ S.nonempty) (hi : i ∈ left) (hj : j ∈ left)
    (hclass : S.classOf i = S.classOf j) (h : S.First gap start left i) :
    S.First gap start left j := by
  obtain ⟨a, hl, hstart, hfirst, hcov⟩ := h
  obtain ⟨hsize, halign, hranges⟩ := hS.classes i (hleft hi) j (hleft hj) hclass
  let σ := Equiv.swap i j
  have hmem : ∀ k ∈ left, σ k ∈ left := by
    intro k hk
    show Equiv.swap i j k ∈ left
    rw [Equiv.swap_apply_def]
    split_ifs
    · exact hj
    · exact hi
    · exact hk
  have hsame : ∀ k, S.size (σ k) = S.size k ∧ S.align (σ k) = S.align k ∧
      S.rangesOf (σ k) = S.rangesOf k := by
    intro k
    show S.size (Equiv.swap i j k) = _ ∧ S.align (Equiv.swap i j k) = _ ∧
      S.rangesOf (Equiv.swap i j k) = _
    rw [Equiv.swap_apply_def]
    split_ifs with h₁ h₂
    · rw [h₁]
      exact ⟨hsize.symm, halign.symm, hranges.symm⟩
    · rw [h₂]
      exact ⟨hsize, halign, hranges⟩
    · exact ⟨rfl, rfl, rfl⟩
  refine ⟨fun k => a (σ k), ?_, fun k hk => hstart _ (hmem k hk), ?_, ?_⟩
  · refine ⟨fun k hk => ?_, fun k hk => hl.banked _ (hmem k hk), fun k hk => ?_, fun k hk => ?_,
      fun k hk l hl' hkl => ?_⟩
    · rw [← (hsame k).2.1]
      exact hl.aligned _ (hmem k hk)
    · rw [← (hsame k).1]
      exact hl.inGap _ (hmem k hk)
    · rw [← (hsame k).1, ← (hsame k).2.2]
      exact hl.inRange _ (hmem k hk)
    · rw [← (hsame k).1, ← (hsame l).1]
      exact hl.separate _ (hmem k hk) _ (hmem l hl') fun he => hkl (σ.injective he)
  · intro k hk
    show a (Equiv.swap i j j) ≤ _
    rw [Equiv.swap_apply_right]
    exact hfirst _ (hmem k hk)
  · show gap.Covers (a (Equiv.swap i j j)) _
    rw [Equiv.swap_apply_right, ← hsize]
    exact hcov

/-- With its first buffer where the search puts it, the layout goes on above that. -/
theorem First.rest (hS : S.WellFormed) (hstart : 0 ≤ start) (hnodup : left.Nodup)
    (hpos : ∀ j ∈ left, 0 < S.size j) (hi : i ∈ left) {b : ℤ} (hb : S.lowest i gap start = some b)
    (h : S.First gap start left i) : S.LayoutFrom (b + S.size i) (left.erase i) := by
  obtain ⟨a, hl, hle, hfirst, hcov⟩ := h
  refine ⟨a, hl.erase i, fun j hj => ?_⟩
  obtain ⟨b', hb', hba⟩ := lowest_of_layout (hS.aligned i) hstart hl hi (hle i hi) hcov
  obtain rfl := Option.some.inj (hb.symm.trans hb')
  have hji := (List.Nodup.mem_erase_iff hnodup).1 hj
  have hsep := hl.separate i hi j hji.2 fun he => hji.1 he.symm
  have := hfirst j hji.2
  have := hpos j hji.2
  omega

theorem not_first_of_lowest (hS : S.WellFormed) (hstart : 0 ≤ start) (hi : i ∈ left)
    (hb : S.lowest i gap start = none) : ¬ S.First gap start left i := by
  rintro ⟨a, hl, hle, _, hcov⟩
  obtain ⟨b, hb', _⟩ := lowest_of_layout (hS.aligned i) hstart hl hi (hle i hi) hcov
  rw [hb] at hb'
  cases hb'

/-! ## The search -/

/-- Every remembered failure has no layout. -/
def Sound (S : CompactionSearch) (s : SearchState) : Prop :=
  ∀ p ∈ s.failed, ¬ S.LayoutFrom p.1 p.2

/-- A result that leaves the memo sound, and that only fails within the budget if `P` does. -/
def Complete (S : CompactionSearch) (P : Prop) (r : Bool × SearchState) : Prop :=
  S.Sound r.2 ∧ (r.1 = false → r.2.exhausted = false → ¬ P)

theorem tryBuffers_complete (hS : S.WellFormed) (hstart : 0 ≤ start) (hleft : left ⊆ S.nonempty)
    {attempt : ℕ → ℤ → SearchState → Bool × SearchState}
    (hattempt : ∀ i ∈ left, ∀ b, S.lowest i gap start = some b → ∀ s, S.Sound s →
      S.Complete (S.First gap start left i) (attempt i b s))
    {is : List ℕ} (his : is ⊆ left) (tried : List ℕ)
    (htried : ∀ i ∈ left, S.classOf i ∈ tried → ¬ S.First gap start left i)
    {s : SearchState} (hs : S.Sound s) :
    let r := S.tryBuffers attempt gap start is tried s
    S.Sound r.2 ∧ (r.1 = some false → r.2.exhausted = true) ∧
      (r.1 = none → ∀ i ∈ is, ¬ S.First gap start left i) := by
  induction is generalizing tried s with
  | nil => exact ⟨hs, (fun h => by cases h), fun _ => List.forall_mem_nil _⟩
  | cons i is ih =>
    have hi := his List.mem_cons_self
    have his' : is ⊆ left := fun j hj => his (List.mem_cons_of_mem i hj)
    rw [tryBuffers]
    by_cases hc : S.classOf i ∈ tried
    · rw [if_pos hc]
      obtain ⟨hsound, hfalse, hnone⟩ := ih his' tried htried hs
      exact ⟨hsound, hfalse, fun h => List.forall_mem_cons.2 ⟨htried i hi hc, hnone h⟩⟩
    · rw [if_neg hc]
      -- once `i` is known not to come first, neither does any buffer of its class
      have htried' (hnot : ¬ S.First gap start left i) :
          ∀ j ∈ left, S.classOf j ∈ tried ++ [S.classOf i] → ¬ S.First gap start left j := by
        intro j hj hmem hfirst
        rcases List.mem_append.1 hmem with hmem | hmem
        · exact htried j hj hmem hfirst
        · exact hnot (hfirst.swap hS hleft hj hi (List.mem_singleton.1 hmem))
      cases hb : S.lowest i gap start with
      | none =>
        have hnot := not_first_of_lowest hS hstart hi hb
        obtain ⟨hsound, hfalse, hnone⟩ := ih his' _ (htried' hnot) hs
        exact ⟨hsound, hfalse, fun h => List.forall_mem_cons.2 ⟨hnot, hnone h⟩⟩
      | some b =>
        by_cases hbudget : s.budget ≤ 0
        · simp only [if_pos hbudget]
          exact ⟨hs, fun _ => trivial, fun h => by cases h⟩
        · simp only [if_neg hbudget]
          obtain ⟨hsound, hcomplete⟩ := hattempt i hi b hb
            { s with budget := s.budget - 1, addrs := s.addrs.set i b } hs
          by_cases hdone : (attempt i b
              { s with budget := s.budget - 1, addrs := s.addrs.set i b }).1 = true
          · rw [if_pos hdone]
            exact ⟨hsound, (fun h => by cases h), fun h => by cases h⟩
          · rw [if_neg hdone]
            by_cases hex : (attempt i b
                { s with budget := s.budget - 1, addrs := s.addrs.set i b }).2.exhausted = true
            · rw [if_pos hex]
              exact ⟨hsound, fun _ => hex, fun h => by cases h⟩
            · rw [if_neg hex]
              have hnot := hcomplete (Bool.eq_false_of_not_eq_true hdone)
                (Bool.eq_false_of_not_eq_true hex)
              obtain ⟨hsound', hfalse, hnone⟩ := ih his' _ (htried' hnot) hsound
              exact ⟨hsound', hfalse, fun h => List.forall_mem_cons.2 ⟨hnot, hnone h⟩⟩

theorem foldl_max_le {m : ℤ} (hm : 0 ≤ m) (h : ∀ i ∈ left, S.size i ≤ m) :
    left.foldl (fun m i => max m (S.size i)) 0 ≤ m := by
  rw [← List.foldl_map]
  rcases List.mem_cons.1 (foldl_max_mem 0 (left.map S.size)) with h' | h'
  · rw [h']
    exact hm
  · obtain ⟨i, hi, h'⟩ := List.mem_map.1 h'
    rw [← h']
    exact h i hi

theorem le_runAbove : 0 ≤ runAbove above ∧ ∀ g ∈ above, g.size ≤ runAbove above := by
  induction above with
  | nil => exact ⟨le_rfl, List.forall_mem_nil _⟩
  | cons g above ih =>
    rw [runAbove, List.forall_mem_cons]
    exact ⟨ih.1.trans (le_max_left _ _), le_max_right _ _,
      fun h hh => (ih.2 h hh).trans (le_max_left _ _)⟩

/-- A place that the search reaches: the gap and those above it, and an address in the gap. -/
structure Reached (S : CompactionSearch) (gap : MemoryRun) (above : List MemoryRun) (start : ℤ)
    (left : List ℕ) : Prop where
  suffix : gap :: above <:+ S.gaps
  start_le : gap.start ≤ start
  le_stop : start ≤ gap.stop
  left_sub : left ⊆ S.nonempty
  left_nodup : left.Nodup
  left_pos : ∀ i ∈ left, 0 < S.size i

namespace Reached

variable (hr : S.Reached gap above start left)

include hr

theorem start_nonneg (hS : S.WellFormed) : 0 ≤ start :=
  (hS.nonneg gap (hr.suffix.subset List.mem_cons_self)).1.trans hr.start_le

/-- From the address on, a layout has the rest of the gap and the gaps above it. -/
theorem covered (hS : S.WellFormed) (hl : S.Layout left a) (hle : ∀ i ∈ left, start ≤ a i) :
    ∀ i ∈ left, gap.Covers (a i) (S.size i) ∨ ∃ g ∈ above, g.Covers (a i) (S.size i) := by
  intro i hi
  obtain ⟨g, hg, hcov⟩ := hl.inGap i hi
  obtain ⟨pre, hpre⟩ := hr.suffix
  rw [← hpre, List.mem_append, List.mem_cons] at hg
  rcases hg with hg | rfl | hg
  · have hsorted := hS.sorted
    rw [← hpre, List.pairwise_append] at hsorted
    have := hsorted.2.2 g hg gap List.mem_cons_self
    have := hr.start_le
    have := hr.left_pos i hi
    have := hle i hi
    have := hcov.2
    omega
  · exact Or.inl hcov
  · exact Or.inr ⟨g, hg, hcov⟩

theorem above_le (hS : S.WellFormed) : ∀ g ∈ above, gap.stop ≤ g.start := by
  obtain ⟨pre, hpre⟩ := hr.suffix
  have hsorted := hS.sorted
  rw [← hpre, List.pairwise_append, List.pairwise_cons] at hsorted
  exact hsorted.2.1.1

theorem bounds (hS : S.WellFormed) (h : S.LayoutFrom start left) :
    (left.map S.size).sum ≤ gap.stop - start + freeAbove above ∧
      left.foldl (fun m i => max m (S.size i)) 0 ≤ max (gap.stop - start) (runAbove above) := by
  obtain ⟨a, hl, hle⟩ := h
  have hin : ∀ i ∈ left, ∃ r ∈ (⟨start, gap.stop - start⟩ :: above : List MemoryRun),
      r.Covers (a i) (S.size i) := by
    intro i hi
    rcases hr.covered hS hl hle i hi with hcov | ⟨g, hg, hcov⟩
    · refine ⟨_, List.mem_cons_self, hle i hi, ?_⟩
      have := hcov.2
      simp only [Run.stop] at this ⊢
      omega
    · exact ⟨g, List.mem_cons_of_mem _ hg, hcov⟩
  have hsizes : ∀ r ∈ (⟨start, gap.stop - start⟩ :: above : List MemoryRun), 0 ≤ r.size := by
    rw [List.forall_mem_cons]
    exact ⟨sub_nonneg.2 hr.le_stop, fun g hg =>
      (hS.nonneg g (hr.suffix.subset (List.mem_cons_of_mem _ hg))).2⟩
  constructor
  · have := sum_size_le hr.left_nodup (fun i hi => (hr.left_pos i hi).le) hsizes hl.separate hin
    simpa [totalSize, freeAbove] using this
  · refine foldl_max_le (le_max_of_le_right le_runAbove.1) fun i hi => ?_
    obtain ⟨r, hr', hcov⟩ := hin i hi
    have hsize : S.size i ≤ r.size := by
      have := hcov.1
      have := hcov.2
      unfold Run.stop at this
      omega
    rcases List.mem_cons.1 hr' with rfl | hr'
    · exact hsize.trans (le_max_left _ _)
    · exact (hsize.trans (le_runAbove.2 r hr')).trans (le_max_right _ _)

theorem first_or_next (hS : S.WellFormed) (hne : left ≠ []) (h : S.LayoutFrom start left) :
    (∃ i ∈ left, S.First gap start left i) ∨
      ∃ next tail, above = next :: tail ∧ S.LayoutFrom next.start left := by
  obtain ⟨a, hl, hle⟩ := h
  obtain ⟨i, hi, hmin⟩ := left.toFinset.exists_min_image a
    (by rwa [List.toFinset_nonempty_iff])
  rw [List.mem_toFinset] at hi
  have hmin' : ∀ j ∈ left, a i ≤ a j := fun j hj => hmin j (List.mem_toFinset.2 hj)
  rcases hr.covered hS hl hle i hi with hcov | ⟨g, hg, hcov⟩
  · exact Or.inl ⟨i, hi, a, hl, hle, hmin', hcov⟩
  · have hstop : gap.stop ≤ a i := (hr.above_le hS g hg).trans hcov.1
    cases habove : above with
    | nil =>
      rw [habove] at hg
      exact absurd hg List.not_mem_nil
    | cons next tail =>
      refine Or.inr ⟨next, tail, rfl, a, hl, fun j hj => ?_⟩
      rcases hr.covered hS hl hle j hj with hcov | ⟨g, hg, hcov⟩
      · have := hcov.2
        have := hr.left_pos j hj
        have := hmin' j hj
        omega
      · obtain ⟨pre, hpre⟩ := hr.suffix
        have hsorted := hS.sorted
        rw [← hpre, habove, List.pairwise_append, List.pairwise_cons, List.pairwise_cons]
          at hsorted
        rw [habove] at hg
        rcases List.mem_cons.1 hg with rfl | hg
        · exact hcov.1
        · have hnext := (hS.nonneg next (hr.suffix.subset
            (habove ▸ List.mem_cons_of_mem _ List.mem_cons_self))).2
          have := hsorted.2.1.2.1 g hg
          have := hcov.1
          unfold Run.stop at *
          omega

theorem next {next : MemoryRun} {tail : List MemoryRun} (hS : S.WellFormed)
    (habove : above = next :: tail) : S.Reached next tail next.start left where
  suffix := (List.suffix_cons gap above |>.trans hr.suffix) |> fun h => habove ▸ h
  start_le := le_rfl
  le_stop := by
    have := (hS.nonneg next (hr.suffix.subset
      (habove ▸ List.mem_cons_of_mem _ List.mem_cons_self))).2
    unfold Run.stop
    omega
  left_sub := hr.left_sub
  left_nodup := hr.left_nodup
  left_pos := hr.left_pos

theorem erase (hS : S.WellFormed) (hi : i ∈ left) {b : ℤ} (hb : S.lowest i gap start = some b) :
    S.Reached gap above (b + S.size i) (left.erase i) where
  suffix := hr.suffix
  start_le := by
    have := (lowest_bounds (hS.aligned i) hb).1
    have := hr.start_le
    have := hr.left_pos i hi
    omega
  le_stop := (lowest_bounds (hS.aligned i) hb).2
  left_sub := fun _ hj => hr.left_sub (List.mem_of_mem_erase hj)
  left_nodup := hr.left_nodup.erase i
  left_pos := fun j hj => hr.left_pos j (List.mem_of_mem_erase hj)

end Reached

theorem sum_erase (hi : i ∈ left) :
    ((left.erase i).map S.size).sum = (left.map S.size).sum - S.size i := by
  rw [((List.perm_cons_erase hi).map S.size).sum_eq, List.map_cons, List.sum_cons]
  omega

/-- The end of a call: no buffer comes first in the gap, so a layout lies in the gaps above. -/
theorem next_complete (hS : S.WellFormed) (hr : S.Reached gap above start left) (hne : left ≠ [])
    {s : SearchState} (hfirst : ∀ i ∈ left, ¬ S.First gap start left i) (hs : S.Sound s)
    {attempt : MemoryRun → List MemoryRun → SearchState → Bool × SearchState}
    (hattempt : ∀ next tail, above = next :: tail →
      S.Complete (S.LayoutFrom next.start left) (attempt next tail s)) :
    S.Complete (S.LayoutFrom start left) (remember start left (tryNext attempt above s)) := by
  have hnext (h : S.LayoutFrom start left) :
      ∃ next tail, above = next :: tail ∧ S.LayoutFrom next.start left :=
    (hr.first_or_next hS hne h).resolve_left fun ⟨i, hi, h⟩ => hfirst i hi h
  have hr' : S.Complete (S.LayoutFrom start left) (tryNext attempt above s) := by
    cases above with
    | nil =>
      refine ⟨hs, fun _ _ h => ?_⟩
      obtain ⟨next, tail, heq, _⟩ := hnext h
      cases heq
    | cons next tail =>
      obtain ⟨hsound, hcomplete⟩ := hattempt next tail rfl
      refine ⟨hsound, fun hf hex h => ?_⟩
      obtain ⟨next', tail', heq, h⟩ := hnext h
      obtain ⟨rfl, rfl⟩ := List.cons.inj heq
      exact hcomplete hf hex h
  obtain ⟨hsound, hcomplete⟩ := hr'
  unfold remember
  split_ifs with hdone hex
  · exact ⟨hsound, fun h => by cases h⟩
  · exact ⟨hsound, fun _ h => absurd hex (by rw [h]; exact Bool.false_ne_true)⟩
  · have hnone := hcomplete (Bool.eq_false_of_not_eq_true hdone) (Bool.eq_false_of_not_eq_true hex)
    refine ⟨?_, fun _ _ => hnone⟩
    intro p hp
    rcases List.mem_cons.1 hp with rfl | hp
    · exact hnone
    · exact hsound p hp

/-- **A call that fails within the budget leaves no layout above its address.** -/
theorem place_complete (hS : S.WellFormed) {fuel : ℕ} {bytes : ℤ} {s : SearchState}
    (hr : S.Reached gap above start left) (hbytes : bytes = (left.map S.size).sum)
    (hfuel : left.length + above.length < fuel) (hs : S.Sound s) :
    S.Complete (S.LayoutFrom start left) (S.place fuel gap above start left bytes s) := by
  induction fuel generalizing gap above start left bytes s with
  | zero => exact absurd hfuel (Nat.not_lt_zero _)
  | succ fuel ih =>
    rw [place]
    by_cases hne : left = []
    · rw [if_pos hne]
      exact ⟨hs, fun h => by cases h⟩
    · rw [if_neg hne]
      dsimp only
      split
      · rename_i hprune
        refine ⟨hs, fun _ _ h => ?_⟩
        obtain ⟨hsum, hmax⟩ := hr.bounds hS h
        rw [Bool.or_eq_true, Bool.or_eq_true, decide_eq_true_iff, decide_eq_true_iff,
          decide_eq_true_iff] at hprune
        rcases hprune with (hprune | hprune) | hprune
        · omega
        · omega
        · exact hs _ hprune h
      · have hattempt : ∀ i ∈ left, ∀ b, S.lowest i gap start = some b → ∀ s, S.Sound s →
            S.Complete (S.First gap start left i)
              (S.place fuel gap above (b + S.size i) (left.erase i) (bytes - S.size i) s) := by
          intro i hi b hb s hs
          have hlen := List.length_erase_of_mem hi
          have := List.length_pos_of_mem hi
          have hsum : bytes - S.size i = ((left.erase i).map S.size).sum := by
            rw [sum_erase hi, hbytes]
          obtain ⟨hsound, hcomplete⟩ := ih (hr.erase hS hi hb) hsum (by omega) hs
          exact ⟨hsound, fun hf hex hfirst => hcomplete hf hex
            (hfirst.rest hS (hr.start_nonneg hS) hr.left_nodup hr.left_pos hi hb)⟩
        obtain ⟨hsound, hfalse, hnone⟩ := tryBuffers_complete hS (hr.start_nonneg hS) hr.left_sub
          hattempt (List.Subset.refl left) []
          (fun _ _ h => absurd h List.not_mem_nil) hs
        revert hsound hfalse hnone
        generalize S.tryBuffers _ gap start left [] s = loop
        obtain ⟨done, s'⟩ := loop
        intro hsound hfalse hnone
        cases done with
        | some done =>
          refine ⟨hsound, fun hf hex => ?_⟩
          rw [hfalse (congrArg some hf)] at hex
          cases hex
        | none =>
          refine next_complete hS hr hne (hnone rfl) hsound fun next tail habove => ?_
          have hlen : left.length + tail.length < fuel := by
            rw [habove, List.length_cons] at hfuel
            omega
          exact ih (hr.next hS habove) hbytes hlen hsound

/-! ## The whole search -/

variable {order : List Buffer} {ctx : BankAwareContext} {gaps : FreeRuns}

theorem ofOrder_key (ctx : BankAwareContext) (gaps : FreeRuns) (hi : i < order.length) :
    (ofOrder order ctx gaps).size i = order[i].size ∧
      (ofOrder order ctx gaps).align i = order[i].align ∧
      (ofOrder order ctx gaps).rangesOf i = order[i].allowed ctx := by
  simp [ofOrder, size, align, rangesOf, hi]

theorem mem_nonempty : i ∈ (ofOrder order ctx gaps).nonempty ↔
    i < order.length ∧ (ofOrder order ctx gaps).size i ≠ 0 := by
  unfold nonempty
  rw [List.mem_filter, List.mem_range, decide_eq_true_iff,
    show (ofOrder order ctx gaps).sizes.length = order.length from List.length_map _]

theorem ofOrder_wellFormed (halign : ∀ b ∈ order, 0 < b.align) :
    (ofOrder order ctx gaps).WellFormed where
  sorted := gaps.sorted
  nonneg := gaps.nonneg
  aligned i := by
    by_cases hi : i < order.length
    · rw [(ofOrder_key ctx gaps hi).2.1]
      exact halign _ (List.getElem_mem hi)
    · have : (ofOrder order ctx gaps).align i = 1 :=
        List.getD_eq_default _ _ (by simpa [ofOrder] using hi)
      omega
  classes i hi j hj h := by
    have hi := (mem_nonempty.1 hi).1
    have hj := (mem_nonempty.1 hj).1
    obtain ⟨hsi, hai, hri⟩ := ofOrder_key ctx gaps hi
    obtain ⟨hsj, haj, hrj⟩ := ofOrder_key ctx gaps hj
    have hkey := classesOf_inj (by rwa [List.length_map]) (by rwa [List.length_map]) h
    simp only [List.getElem_map, Prod.mk.injEq] at hkey
    rw [hsi, hsj, hai, haj, hri, hrj]
    exact hkey

/-- A search that fails within its budget has no layout of the buffers that cover bytes. -/
theorem run_nonempty {budget : ℤ} (hsize : ∀ b ∈ order, 0 ≤ b.size) (halign : ∀ b ∈ order, 0 < b.align)
    (hrun : ((ofOrder order ctx gaps).run budget).1 = false)
    (hexhausted : ((ofOrder order ctx gaps).run budget).2.exhausted = false) :
    ¬ ∃ a, (ofOrder order ctx gaps).Layout (ofOrder order ctx gaps).nonempty a := by
  rintro ⟨a, hl⟩
  have hS := @ofOrder_wellFormed order ctx gaps halign
  cases hgaps : (ofOrder order ctx gaps).gaps with
  | nil =>
    rw [run, hgaps] at hrun
    have hne : (ofOrder order ctx gaps).nonempty ≠ [] := by
      intro h
      rw [h] at hrun
      cases hrun
    obtain ⟨i, hi⟩ := List.exists_mem_of_ne_nil _ hne
    obtain ⟨gap, hgap, _⟩ := hl.inGap i hi
    rw [hgaps] at hgap
    exact List.not_mem_nil hgap
  | cons gap above =>
    have hpos : ∀ i ∈ (ofOrder order ctx gaps).nonempty, 0 < (ofOrder order ctx gaps).size i := by
      intro i hi
      obtain ⟨hi, hne⟩ := mem_nonempty.1 hi
      have := hsize _ (List.getElem_mem hi)
      rw [← (ofOrder_key ctx gaps hi).1] at this
      omega
    have hreached : (ofOrder order ctx gaps).Reached gap above gap.start
        (ofOrder order ctx gaps).nonempty := by
      refine ⟨hgaps ▸ List.suffix_refl _, le_rfl, ?_, List.Subset.refl _,
        List.nodup_range.filter _, hpos⟩
      have := (hS.nonneg gap (hgaps ▸ List.mem_cons_self)).2
      unfold Run.stop
      omega
    rw [run, hgaps] at hrun hexhausted
    refine (place_complete hS hreached rfl (Nat.lt_succ_self _) ?_).2 hrun hexhausted ⟨a, hl, ?_⟩
    · exact fun p hp => absurd hp List.not_mem_nil
    · intro i hi
      obtain ⟨g, hg, hcov⟩ := hl.inGap i hi
      have hsorted := hS.sorted
      rw [hgaps] at hg hsorted
      rcases List.mem_cons.1 hg with rfl | hg'
      · exact hcov.1
      · have := (List.pairwise_cons.1 hsorted).1 g hg'
        have := (hS.nonneg gap (hgaps ▸ List.mem_cons_self)).2
        have := hcov.1
        unfold Run.stop at *
        omega

/-- **The compaction search is complete**: where it fails within its budget, no addresses keep
every buffer aligned, inside one free run and one of its allowed ranges with its start in a bank,
and disjoint from the others. -/
theorem run_complete (budget : ℤ) (hsize : ∀ b ∈ order, 0 < b.size) (halign : ∀ b ∈ order, 0 < b.align)
    (hrun : ((ofOrder order ctx gaps).run budget).1 = false)
    (hexhausted : ((ofOrder order ctx gaps).run budget).2.exhausted = false) :
    ¬ ∃ a, (ofOrder order ctx gaps).Layout (List.range order.length) a := by
  have hall : (ofOrder order ctx gaps).nonempty = List.range order.length := by
    unfold nonempty
    rw [show (ofOrder order ctx gaps).sizes.length = order.length from List.length_map _,
      List.filter_eq_self]
    intro i hi
    have hi := List.mem_range.mp hi
    rw [decide_eq_true_iff, (ofOrder_key ctx gaps hi).1]
    exact (hsize _ (List.getElem_mem hi)).ne'
  rw [← hall]
  exact run_nonempty (fun b hb => (hsize b hb).le) halign hrun hexhausted

def twoRuns : FreeRuns := ⟨[⟨0, 4⟩, ⟨6, 3⟩], by decide, by decide⟩

/-- Two of the three buffers can only start at address 0. -/
theorem run_complete_twoRuns :
    ¬ ∃ a, (ofOrder [⟨3, 1, none, false⟩, ⟨2, 4, none, false⟩, ⟨2, 4, none, false⟩]
      ⟨2, 8, 16, 0⟩ twoRuns).Layout (List.range 3) a :=
  run_complete 100 (by decide) (by decide) (by decide +kernel) (by decide +kernel)

end CompactionSearch

end MlirAie.Buffers
