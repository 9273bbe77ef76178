import Mathlib

/-!
# Packing intervals

Intervals of integers that do not overlap, each inside one of several runs; and segments
`(start, length)` of a stream that follow each other.

* `Run`: an interval `[start, start + size)`;
* **`sum_size_le`**: the intervals are together no longer than the runs;
* **`layout_reads`**: segments of the right lengths read exactly the parts.
-/

namespace MlirAie.Lib

section Packing

/-- The half-open interval `[start, start + size)`. -/
structure Run where
  start : ℤ
  size : ℤ
deriving DecidableEq, Repr

namespace Run

/-- The first integer after the run. -/
def stop (r : Run) : ℤ := r.start + r.size

/-- The interval of the given length at `a` lies inside the run. -/
def Covers (r : Run) (a len : ℤ) : Prop := r.start ≤ a ∧ a + len ≤ r.stop

instance (r : Run) (a len : ℤ) : Decidable (r.Covers a len) := by unfold Covers; infer_instance

end Run

def totalSize (runs : List Run) : ℤ := (runs.map Run.size).sum

/-- The intervals at `a` of the given lengths do not overlap. -/
def Separate {ι : Type*} (s : List ι) (a len : ι → ℤ) : Prop :=
  ∀ i ∈ s, ∀ j ∈ s, i ≠ j → a i + len i ≤ a j ∨ a j + len j ≤ a i

variable {ι : Type*} {s : List ι} {a len : ι → ℤ} {runs : List Run}

/-- **Packing bound**: non-overlapping intervals inside runs are together no longer than them. -/
theorem sum_size_le (hs : s.Nodup) (hlen : ∀ i ∈ s, 0 ≤ len i) (hruns : ∀ r ∈ runs, 0 ≤ r.size)
    (hsep : Separate s a len) (hin : ∀ i ∈ s, ∃ r ∈ runs, r.Covers (a i) (len i)) :
    (s.map len).sum ≤ totalSize runs := by
  classical
  let slot (i : ι) : Finset ℤ := Finset.Ico (a i) (a i + len i)
  let room : Finset ℤ := runs.toFinset.biUnion fun r => Finset.Ico r.start r.stop
  have hslot : ∀ i ∈ s.toFinset, ∀ j ∈ s.toFinset, i ≠ j → Disjoint (slot i) (slot j) := by
    intro i hi j hj hij
    rw [Finset.disjoint_left]
    intro x hx hx'
    rw [Finset.mem_Ico] at hx hx'
    have := hsep i (List.mem_toFinset.1 hi) j (List.mem_toFinset.1 hj) hij
    omega
  have hsub : s.toFinset.biUnion slot ⊆ room := by
    intro x hx
    obtain ⟨i, hi, hx⟩ := Finset.mem_biUnion.1 hx
    obtain ⟨r, hr, hcov⟩ := hin i (List.mem_toFinset.1 hi)
    refine Finset.mem_biUnion.2 ⟨r, List.mem_toFinset.2 hr, ?_⟩
    rw [Finset.mem_Ico] at hx ⊢
    exact ⟨hcov.1.trans hx.1, hx.2.trans_le hcov.2⟩
  have hcard := (Finset.card_le_card hsub).trans Finset.card_biUnion_le
  rw [Finset.card_biUnion hslot] at hcard
  have hleft : ((∑ i ∈ s.toFinset, (slot i).card : ℕ) : ℤ) = (s.map len).sum := by
    rw [Nat.cast_sum, List.sum_toFinset _ hs]
    refine congrArg List.sum (List.map_congr_left fun i hi => ?_)
    have := hlen i hi
    rw [Int.card_Ico]
    omega
  have hright : ((∑ r ∈ runs.toFinset, (Finset.Ico r.start r.stop).card : ℕ) : ℤ) ≤
      totalSize runs := by
    have hsize : ∀ r ∈ runs, ((Finset.Ico r.start r.stop).card : ℤ) = r.size := by
      intro r hr
      have := hruns r hr
      rw [Int.card_Ico, Run.stop]
      omega
    rw [Nat.cast_sum, totalSize]
    clear hcard hsub hin room
    induction runs with
    | nil => simp
    | cons r runs ih =>
      rw [List.forall_mem_cons] at hruns hsize
      rw [List.toFinset_cons, List.map_cons, List.sum_cons]
      have := ih hruns.2 hsize.2
      by_cases hr : r ∈ runs.toFinset
      · rw [Finset.insert_eq_of_mem hr]
        omega
      · rw [Finset.sum_insert hr, hsize.1]
        omega
  rw [← hleft]
  exact (Int.ofNat_le.2 hcard).trans hright

end Packing

/-! ## Consecutive segments of a stream -/

section Tiling

variable {α β : Type*}

/-- The part of the stream from `seg.1` on, of length `seg.2`. -/
def slice (stream : List β) (seg : ℕ × ℕ) : List β := (stream.drop seg.1).take seg.2

/-- The segments cover `[start, stop)` in order. -/
def Tiles : ℕ → List (ℕ × ℕ) → ℕ → Prop
  | start, [], stop => start = stop
  | start, seg :: segs, stop => seg.1 = start ∧ Tiles (start + seg.2) segs stop

/-- The segments of parts of sizes `size`, one after another. -/
def layout (size : α → ℕ) : ℕ → List α → List (ℕ × ℕ)
  | _, [] => []
  | start, a :: l => (start, size a) :: layout size (start + size a) l

theorem tiles_layout (size : α → ℕ) (start : ℕ) (l : List α) :
    Tiles start (layout size start l) (start + (l.map size).sum) := by
  induction l generalizing start with
  | nil => exact (Nat.add_zero start).symm
  | cons a l ih =>
    rw [List.map_cons, List.sum_cons, ← Nat.add_assoc]
    exact ⟨rfl, ih (start + size a)⟩

/-- Segments that cover a stream have lengths that add up to it. -/
theorem Tiles.unique {start stop stop' : ℕ} {segs : List (ℕ × ℕ)} (h : Tiles start segs stop)
    (h' : Tiles start segs stop') : stop = stop' := by
  induction segs generalizing start with
  | nil => exact Eq.trans (Eq.symm h) h'
  | cons seg segs ih => exact ih h.2 h'.2

/-- **Segments of the right lengths read the parts.** -/
theorem layout_reads {size : α → ℕ} {parts : α → List β} {l : List α}
    (hsize : ∀ a ∈ l, (parts a).length = size a) (before : List β) :
    List.Forall₂ (fun seg a => slice (before ++ l.flatMap parts) seg = parts a)
      (layout size before.length l) l := by
  induction l generalizing before with
  | nil => exact .nil
  | cons a l ih =>
    rw [List.forall_mem_cons] at hsize
    refine .cons ?_ ?_
    · rw [slice, List.drop_left, List.flatMap_cons, ← hsize.1, List.take_left]
    · have hrest := ih hsize.2 (before ++ parts a)
      rwa [List.length_append, hsize.1, List.append_assoc, ← List.flatMap_cons] at hrest

end Tiling

end MlirAie.Lib
