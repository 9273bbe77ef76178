import MlirAie.Lib.Extremes
import MlirAie.Ranked.Candidates

/-!
# The least fragmenting gap

An object that is placed before the unconstrained buffers goes to where it leaves the largest free
run behind. Only the two ends of each gap are tried.

* **`MemoryOccupancy.findLeastFragmentingGap`**: the search;
* `exists_flush`: one of the two ends of a gap leaves every run that a place in it leaves;
* **`findLeastFragmentingGap_optimal`**: what fits is found, and nothing that fits leaves more.
-/

namespace MlirAie.Ranked

open Lib

namespace MemoryOccupancy

variable (o : MemoryOccupancy) (lo hi : ℤ) (size alignBytes : ℕ)

/-- The largest free run of the tile once the bytes are taken. -/
def runLeft (start : ℕ) : ℕ := (o.markOccupied start (start + size)).largestGap 0 o.size

/-- A start against the best one so far and its run; ties to the lowest address. -/
def considerStart (best : Option ℕ × ℤ) (start : ℕ) : Option ℕ × ℤ :=
  let run : ℤ := o.runLeft size start
  if run > best.2 ∨ run = best.2 ∧ best.1.any (start < ·) then (some start, run) else best

/-- The starts that are considered; `forEachGap` clamps the window to the tile. -/
def flushStarts : List ℕ :=
  (o.gapsIn lo.toNat hi.toNat).flatMap fun gap => flushEnds gap size alignBytes

/-- **`findLeastFragmentingGap`.** -/
def findLeastFragmentingGap : Option ℕ :=
  ((o.flushStarts lo hi size alignBytes).foldl (o.considerStart size) (none, -1)).1

/-- **An aligned placement on free bytes of the window.** -/
structure Fits (start : ℕ) : Prop where
  aligned : alignBytes ∣ start
  le : lo ≤ start
  stop_le : ((start + size : ℕ) : ℤ) ≤ hi
  free : Free o start size

/-- There are `n` free bytes in a row. -/
def HasRun (n : ℕ) : Prop := ∃ start, Free o start n

variable {o lo hi size alignBytes}

/-! ## The largest gap is the longest run -/

theorem stop_of_mem_gapsFrom {hi fuel : ℕ} {gap : MemoryRun} :
    ∀ {cursor : ℕ}, gap ∈ o.gapsFrom hi fuel cursor →
      gap.stop = hi ∨ o.taken gap.stop = true := by
  induction fuel with
  | zero => exact fun h => absurd h List.not_mem_nil
  | succ fuel ih =>
    intro cursor h
    rw [gapsFrom] at h
    cases hstart : o.findFirstIn false cursor hi with
    | none =>
      rw [hstart] at h
      exact absurd h List.not_mem_nil
    | some gapStart =>
      rw [hstart] at h
      obtain ⟨hin, hfree, -⟩ := findFirstIn_eq_some hstart
      have hlt := (gapEnd_spec hin.2 hfree).1
      rcases List.mem_cons.1 h with rfl | h
      · have hstop : gapStart + ((o.findFirstIn true gapStart hi).getD hi - gapStart) =
            (o.findFirstIn true gapStart hi).getD hi := by omega
        simp only [MemoryRun.stop, hstop]
        cases hnext : o.findFirstIn true gapStart hi with
        | none => exact Or.inl rfl
        | some stop => exact Or.inr (findFirstIn_eq_some hnext).2.1
      · exact ih h

/-- **Free bytes of a window are in one gap of it.** -/
theorem exists_gap {lo hi start n : ℕ} (hn : 0 < n) (hlo : lo ≤ start) (hhi : start + n ≤ hi)
    (hfree : Free o start n) :
    ∃ gap ∈ o.gapsIn lo hi, gap.start ≤ start ∧ start + n ≤ gap.stop := by
  have hsize : start + n ≤ o.size := by
    have := (hfree (start + n - 1) (by omega) (by omega)).1
    omega
  obtain ⟨gap, hgap, hle, hlt⟩ := @exists_mem_gapsFrom o (min hi o.size) (min hi o.size - lo) lo
    start (by omega) hlo (by omega) (hfree start le_rfl (by omega)).2
  refine ⟨gap, hgap, hle, ?_⟩
  rcases stop_of_mem_gapsFrom hgap with hstop | htaken
  · omega
  · by_contra hnot
    have hbit := (hfree gap.stop (by omega) (by omega)).2
    rw [htaken] at hbit
    cases hbit

theorem le_largestGap_iff {n : ℕ} (hn : 0 < n) : n ≤ o.largestGap 0 o.size ↔ o.HasRun n := by
  have hfold : o.largestGap 0 o.size = ((o.gapsIn 0 o.size).map MemoryRun.size).foldl max 0 := by
    rw [largestGap, List.foldl_map]
  rw [hfold]
  constructor
  · intro hle
    rcases List.mem_cons.1 (foldl_max_mem 0 ((o.gapsIn 0 o.size).map MemoryRun.size)) with h | h
    · omega
    · obtain ⟨gap, hgap, hsize⟩ := List.mem_map.1 h
      refine ⟨gap.start, free_of_gap hgap le_rfl ?_⟩
      rw [MemoryRun.stop]
      omega
  · rintro ⟨start, hfree⟩
    have hsize := (hfree (start + n - 1) (by omega) (by omega)).1
    obtain ⟨gap, hgap, hstart, hstop⟩ := exists_gap hn (Nat.zero_le start)
      (by omega : start + n ≤ o.size) hfree
    have hle := (le_foldl_max 0 ((o.gapsIn 0 o.size).map MemoryRun.size)).2 gap.size
      (List.mem_map_of_mem hgap)
    rw [MemoryRun.stop] at hstop
    omega

theorem free_markOccupied_iff {a start n : ℕ} (hn : 0 < n) :
    Free (o.markOccupied start (start + size)) a n ↔
      Free o a n ∧ (size = 0 ∨ a + n ≤ start ∨ start + size ≤ a) := by
  have hbit : ∀ i, i < o.size → ((o.markOccupied start (start + size)).taken i = false ↔
      o.taken i = false ∧ ¬(start ≤ i ∧ i < start + size)) := by
    intro i hi
    rw [taken_markOccupied hi]
    simp
  constructor
  · intro h
    have hold : Free o a n := fun i hlo hhi => by
      obtain ⟨hi, htaken⟩ := h i hlo hhi
      rw [size_markOccupied] at hi
      exact ⟨hi, ((hbit i hi).1 htaken).1⟩
    refine ⟨hold, ?_⟩
    by_contra hnot
    push Not at hnot
    obtain ⟨hsize, hstart, hstop⟩ := hnot
    -- the first byte that both have
    obtain ⟨hi, htaken⟩ := h (max a start) (by omega) (by omega)
    rw [size_markOccupied] at hi
    exact ((hbit _ hi).1 htaken).2 (by omega)
  · rintro ⟨hold, hapart⟩ i hlo hhi
    obtain ⟨hi, htaken⟩ := hold i hlo hhi
    rw [size_markOccupied]
    exact ⟨hi, (hbit i hi).2 ⟨htaken, by omega⟩⟩

theorem le_runLeft_iff {start n : ℕ} (hn : 0 < n) :
    n ≤ o.runLeft size start ↔ (o.markOccupied start (start + size)).HasRun n := by
  rw [← le_largestGap_iff hn, size_markOccupied, runLeft]

/-! ## The two ends of a gap -/

theorem alignTo_le {align value start : ℕ} (halign : 0 < align) (hdvd : align ∣ start)
    (hle : value ≤ start) : alignTo value align ≤ start := by
  obtain ⟨k, rfl⟩ := hdvd
  have hdiv : (value + align - 1) / align < k + 1 := by
    rw [Nat.div_lt_iff_lt_mul halign, Nat.succ_mul, Nat.mul_comm k]
    omega
  rw [alignTo, Nat.mul_comm]
  exact Nat.mul_le_mul_left align (Nat.lt_succ_iff.1 hdiv)

theorem le_alignDown {align value start : ℕ} (hdvd : align ∣ start) (hle : start ≤ value) :
    start ≤ alignDown value align := by
  obtain ⟨k, rfl⟩ := hdvd
  rcases Nat.eq_zero_or_pos align with rfl | halign
  · omega
  · rw [alignDown, Nat.mul_comm]
    exact Nat.mul_le_mul_right align ((Nat.le_div_iff_mul_le halign).2 (by rwa [Nat.mul_comm]))

theorem dvd_of_mem_flushEnds {gap : MemoryRun} {start : ℕ}
    (h : start ∈ flushEnds gap size alignBytes) : alignBytes ∣ start := by
  unfold flushEnds at h
  simp only at h
  split_ifs at h
  · exact absurd h List.not_mem_nil
  · have hlow : alignBytes ∣ alignTo gap.start alignBytes := Dvd.intro_left _ rfl
    simp only [List.mem_cons, List.not_mem_nil, or_false] at h
    rcases h with rfl | rfl
    · exact hlow
    · rcases max_choice (alignDown (gap.stop - size) alignBytes)
        (alignTo gap.start alignBytes) with h | h
      · rw [h]
        exact Dvd.intro_left _ rfl
      · rwa [h]

/-- **One of the two ends of a gap** is as far from any other bytes as a place between is. -/
theorem exists_flush {gap : MemoryRun} {start : ℕ} (halign : 0 < alignBytes)
    (hdvd : alignBytes ∣ start) (hstart : gap.start ≤ start) (hstop : start + size ≤ gap.stop) :
    ∃ low ∈ flushEnds gap size alignBytes, ∃ high ∈ flushEnds gap size alignBytes,
      low ≤ start ∧ start ≤ high := by
  have hlow : alignTo gap.start alignBytes ≤ start := alignTo_le halign hdvd hstart
  have hhigh : start ≤ alignDown (gap.stop - size) alignBytes :=
    le_alignDown hdvd (by omega)
  unfold flushEnds
  simp only
  rw [if_neg (by omega)]
  exact ⟨_, List.mem_cons_self, _, List.mem_cons_of_mem _ List.mem_cons_self, hlow,
    hhigh.trans (le_max_left _ _)⟩

theorem mem_flushStarts {start : ℕ} (halign : 0 < alignBytes)
    (h : start ∈ o.flushStarts lo hi size alignBytes) (hsize : 0 < size) :
    o.Fits lo hi size alignBytes start := by
  obtain ⟨gap, hgap, hmem⟩ := List.mem_flatMap.1 h
  obtain ⟨hstart, hstop⟩ := mem_flushEnds halign hmem
  obtain ⟨hlo, hhi, -⟩ := free_of_mem_gapsIn hgap
  exact ⟨dvd_of_mem_flushEnds hmem, by omega, by omega, free_of_gap hgap hstart hstop⟩

/-- **Whatever run a placement leaves, a start that is considered leaves too.** -/
theorem exists_mem_flushStarts {start n : ℕ} (hsize : 0 < size) (halign : 0 < alignBytes)
    (h : o.Fits lo hi size alignBytes start) (hn : n ≤ o.runLeft size start) :
    ∃ s ∈ o.flushStarts lo hi size alignBytes, n ≤ o.runLeft size s := by
  have hle := h.le
  have hstop_le := h.stop_le
  obtain ⟨gap, hgap, hstart, hstop⟩ := exists_gap hsize
    (by omega : lo.toNat ≤ start) (by omega : start + size ≤ hi.toNat) h.free
  obtain ⟨low, hlow, high, hhigh, hlowle, hhighle⟩ := exists_flush halign h.aligned hstart hstop
  have hmem : ∀ s ∈ flushEnds gap size alignBytes, s ∈ o.flushStarts lo hi size alignBytes :=
    fun s hs => List.mem_flatMap.2 ⟨gap, hgap, hs⟩
  rcases Nat.eq_zero_or_pos n with rfl | hpos
  · exact ⟨low, hmem low hlow, Nat.zero_le _⟩
  · obtain ⟨a, ha⟩ := (le_runLeft_iff hpos).1 hn
    obtain ⟨hfree, hzero | hbelow | habove⟩ := (free_markOccupied_iff hpos).1 ha
    · omega
    · -- a run below the placement is below the upper end of the gap
      refine ⟨high, hmem high hhigh, (le_runLeft_iff hpos).2 ⟨a, ?_⟩⟩
      exact (free_markOccupied_iff hpos).2 ⟨hfree, by omega⟩
    · refine ⟨low, hmem low hlow, (le_runLeft_iff hpos).2 ⟨a, ?_⟩⟩
      exact (free_markOccupied_iff hpos).2 ⟨hfree, by omega⟩

/-! ## The search -/

structure BestOf (o : MemoryOccupancy) (size : ℕ) (starts : List ℕ) (best : Option ℕ × ℤ) :
    Prop where
  run : ∀ s ∈ starts, (o.runLeft size s : ℤ) ≤ best.2
  none_iff : best.1 = none ↔ starts = []
  some_run : ∀ s, best.1 = some s → s ∈ starts ∧ best.2 = o.runLeft size s
  none_run : best.1 = none → best.2 = -1

theorem BestOf.consider {starts : List ℕ} {best : Option ℕ × ℤ} (h : BestOf o size starts best)
    (start : ℕ) : BestOf o size (starts ++ [start]) (o.considerStart size best start) := by
  unfold considerStart
  simp only
  split_ifs with hbetter
  · refine ⟨fun s hs => ?_, by simp, fun s hs => ?_, fun hnone => by cases hnone⟩
    · rcases List.mem_append.1 hs with hs | hs
      · have := h.run s hs
        simp only
        omega
      · rw [List.mem_singleton.1 hs]
    · obtain rfl : start = s := Option.some.inj hs
      exact ⟨by simp, rfl⟩
  · have hle : (o.runLeft size start : ℤ) ≤ best.2 := by
      by_contra hnot
      exact hbetter (Or.inl (by omega))
    have hsome : best.1 ≠ none := by
      intro hnone
      have := h.none_run hnone
      omega
    refine ⟨fun s hs => ?_, by simpa using hsome, fun s hs => ?_, h.none_run⟩
    · rcases List.mem_append.1 hs with hs | hs
      · exact h.run s hs
      · rwa [List.mem_singleton.1 hs]
    · obtain ⟨hmem, hrun⟩ := h.some_run s hs
      exact ⟨List.mem_append_left _ hmem, hrun⟩

theorem bestOf_foldl (starts : List ℕ) :
    BestOf o size starts (starts.foldl (o.considerStart size) (none, -1)) := by
  induction starts using List.reverseRecOn with
  | nil => exact ⟨by simp, by simp, by simp, fun _ => rfl⟩
  | append_singleton starts start ih =>
    rw [List.foldl_append]
    exact ih.consider start

/-- **The search finds a start exactly if something fits, and the start leaves every free run that
another placement leaves.** -/
theorem findLeastFragmentingGap_optimal (o : MemoryOccupancy) (lo hi : ℤ) {size alignBytes : ℕ}
    (hsize : 0 < size) (halign : 0 < alignBytes) :
    ((o.findLeastFragmentingGap lo hi size alignBytes).isSome ↔
      ∃ start, o.Fits lo hi size alignBytes start) ∧
    ∀ start, o.findLeastFragmentingGap lo hi size alignBytes = some start →
      o.Fits lo hi size alignBytes start ∧
      ∀ other, o.Fits lo hi size alignBytes other → ∀ n,
        (o.markOccupied other (other + size)).HasRun n →
          (o.markOccupied start (start + size)).HasRun n := by
  have hbest := @bestOf_foldl o size (o.flushStarts lo hi size alignBytes)
  refine ⟨⟨fun h => ?_, fun ⟨start, hfits⟩ => ?_⟩, fun start hstart => ?_⟩
  · obtain ⟨start, hstart⟩ := Option.isSome_iff_exists.1 h
    exact ⟨start, mem_flushStarts halign (hbest.some_run start hstart).1 hsize⟩
  · obtain ⟨s, hs, -⟩ := exists_mem_flushStarts hsize halign hfits (Nat.zero_le _)
    rw [Option.isSome_iff_ne_none]
    intro hnone
    rw [hbest.none_iff.1 hnone] at hs
    exact absurd hs List.not_mem_nil
  · obtain ⟨hmem, hrun⟩ := hbest.some_run start hstart
    refine ⟨mem_flushStarts halign hmem hsize, fun other hother n hn => ?_⟩
    rcases Nat.eq_zero_or_pos n with rfl | hpos
    · exact ⟨0, fun i _ hi => absurd hi (by omega)⟩
    · obtain ⟨s, hs, hle⟩ := exists_mem_flushStarts hsize halign hother
        ((le_runLeft_iff hpos).2 hn)
      have hmost := hbest.run s hs
      exact (le_runLeft_iff hpos).1 (by omega)

/-- Six free bytes and two that are taken. -/
def lastTaken : MemoryOccupancy := ⟨List.replicate 6 false ++ List.replicate 2 true⟩

theorem lastTaken_optimal :
    (lastTaken.findLeastFragmentingGap 0 8 2 4).isSome ↔
      ∃ start, lastTaken.Fits 0 8 2 4 start :=
  (findLeastFragmentingGap_optimal lastTaken 0 8 (by decide) (by decide)).1

example : lastTaken.findLeastFragmentingGap 0 8 2 4 = some 0 := by decide

end MemoryOccupancy

end MlirAie.Ranked
