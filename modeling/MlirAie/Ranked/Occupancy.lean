import Mathlib

/-!
# Memory occupancy

Which bytes of a tile's data memory are taken, and the maximal free runs that the placement search
reads of it.

* `MemoryOccupancy.markOccupied`, `markFree`: the updates;
* `findGap`, `slackAt`, `gapAt`, `topTwoGaps`, `largestGap`: what is read of the runs;
* `markFree_markOccupied`: an update of free bytes undone; **`ext_of_gapsIn`**: the free runs say
  which bytes are taken.
-/

namespace MlirAie.Ranked

structure MemoryRun where
  start : ℕ := 0
  size : ℕ := 0
deriving DecidableEq, Repr

namespace MemoryRun

def stop (run : MemoryRun) : ℕ := run.start + run.size

def contains (run : MemoryRun) (addr : ℕ) : Bool := run.start ≤ addr && addr < run.stop

end MemoryRun

/-- `llvm::alignTo`. -/
def alignTo (value align : ℕ) : ℕ := (value + align - 1) / align * align

/-- `llvm::alignDown`. -/
def alignDown (value align : ℕ) : ℕ := value / align * align

/-- A bit for each byte of the tile. -/
structure MemoryOccupancy where
  occupied : List Bool
deriving DecidableEq, Repr

namespace MemoryOccupancy

def size (o : MemoryOccupancy) : ℕ := o.occupied.length

def taken (o : MemoryOccupancy) (i : ℕ) : Bool := o.occupied.getD i false

/-- The bits in `[start, stop)` set to `b`. -/
def assign (o : MemoryOccupancy) (start stop : ℕ) (b : Bool) : MemoryOccupancy :=
  ⟨o.occupied.mapIdx fun i old => if start ≤ i ∧ i < stop then b else old⟩

def markOccupied (o : MemoryOccupancy) (start stop : ℕ) : MemoryOccupancy :=
  if start < stop then o.assign start stop true else o

def markFree (o : MemoryOccupancy) (start stop : ℕ) : MemoryOccupancy :=
  if start < stop then o.assign start stop false else o

/-- `find_first_in` and `find_first_unset_in`: the first bit of `[lo, hi)` that is `b`. -/
def findFirstIn (o : MemoryOccupancy) (b : Bool) (lo hi : ℕ) : Option ℕ :=
  (List.range' lo (hi - lo)).find? fun i => o.taken i == b

/-- The loop of `forEachGap`; each round has a higher cursor, so `fuel` counts the bytes left. -/
def gapsFrom (o : MemoryOccupancy) (hi : ℕ) : ℕ → ℕ → List MemoryRun
  | 0, _ => []
  | fuel + 1, cursor =>
    match o.findFirstIn false cursor hi with
    | none => []
    | some gapStart =>
      let gapEnd := (o.findFirstIn true gapStart hi).getD hi
      ⟨gapStart, gapEnd - gapStart⟩ :: o.gapsFrom hi fuel gapEnd

/-- Every maximal free run in `[lo, hi)`, lowest first. -/
def gapsIn (o : MemoryOccupancy) (lo hi : ℕ) : List MemoryRun :=
  o.gapsFrom (min hi o.size) (min hi o.size - lo) lo

/-- A gap against the tightest one so far, with its start and what it wastes. -/
def tighter (size alignBytes : ℕ) (best : Option (ℕ × ℕ)) (gap : MemoryRun) : Option (ℕ × ℕ) :=
  let start := alignTo gap.start alignBytes
  if start + size ≤ gap.stop then
    let slack := gap.size - size
    match best with
    | none => some (start, slack)
    | some b => if slack < b.2 then some (start, slack) else best
  else best

/-- Start of the tightest gap in `[lo, hi)` that holds `size` bytes. -/
def findGap (o : MemoryOccupancy) (lo hi size alignBytes : ℕ) : Option ℕ :=
  ((o.gapsIn lo hi).foldl (tighter size alignBytes) none).map Prod.fst

/-- Bytes of the enclosing free run left unused. -/
def slackAt (o : MemoryOccupancy) (addr size : ℕ) : ℕ :=
  (o.gapsIn 0 o.size).foldl (fun slack gap =>
    if gap.start ≤ addr ∧ addr + size ≤ gap.stop then gap.size - size else slack) 0

/-- The free run enclosing `addr`, or a zero-length run. -/
def gapAt (o : MemoryOccupancy) (addr : ℕ) : MemoryRun :=
  (o.gapsIn 0 o.size).foldl (fun found gap => if gap.contains addr then gap else found) {}

def topTwoGaps (o : MemoryOccupancy) (lo hi : ℕ) : ℕ × ℕ :=
  (o.gapsIn lo hi).foldl (fun top gap =>
    if gap.size > top.1 then (gap.size, top.1)
    else if gap.size > top.2 then (top.1, gap.size) else top) (0, 0)

/-- Largest single free run in `[lo, hi)`. -/
def largestGap (o : MemoryOccupancy) (lo hi : ℕ) : ℕ :=
  (o.gapsIn lo hi).foldl (fun best gap => max best gap.size) 0

/-! ## Updates -/

variable {o : MemoryOccupancy} {start stop : ℕ}

theorem ext_taken {o o' : MemoryOccupancy} (hsize : o.size = o'.size)
    (h : ∀ i < o.size, o.taken i = o'.taken i) : o = o' := by
  obtain ⟨bits⟩ := o
  obtain ⟨bits'⟩ := o'
  have hlen : bits.length = bits'.length := hsize
  congr 1
  apply List.ext_getElem hlen
  intro i hi hi'
  have hbit := h i hi
  simpa only [taken, List.getD_eq_getElem?_getD, List.getElem?_eq_getElem hi,
    List.getElem?_eq_getElem hi', Option.getD_some] using hbit

@[simp] theorem size_assign (b : Bool) : (o.assign start stop b).size = o.size :=
  List.length_mapIdx

theorem taken_assign {b : Bool} {i : ℕ} (hi : i < o.size) :
    (o.assign start stop b).taken i = if start ≤ i ∧ i < stop then b else o.taken i := by
  have hi' : i < o.occupied.length := hi
  simp only [taken, assign, List.getD_eq_getElem?_getD, List.getElem?_mapIdx,
    List.getElem?_eq_getElem hi', Option.map_some, Option.getD_some]

@[simp] theorem size_markOccupied : (o.markOccupied start stop).size = o.size := by
  unfold markOccupied
  split_ifs
  · exact size_assign true
  · rfl

theorem taken_markOccupied {i : ℕ} (hi : i < o.size) :
    (o.markOccupied start stop).taken i = (o.taken i || (start ≤ i && i < stop)) := by
  unfold markOccupied
  split_ifs with h
  · rw [taken_assign hi]
    by_cases hin : start ≤ i ∧ i < stop
    · simp [hin]
    · rw [if_neg hin]
      have hnot : (decide (start ≤ i) && decide (i < stop)) = false := by
        rw [← Bool.decide_and]
        exact decide_eq_false hin
      rw [hnot, Bool.or_false]
  · have hnot : (decide (start ≤ i) && decide (i < stop)) = false := by
      rw [← Bool.decide_and]
      exact decide_eq_false (by omega)
    rw [hnot, Bool.or_false]

/-- **Bytes that were free are as they were** when their mark is taken back. -/
theorem markFree_markOccupied
    (h : ∀ i, start ≤ i → i < stop → i < o.size → o.taken i = false) :
    (o.markOccupied start stop).markFree start stop = o := by
  unfold markFree markOccupied
  split_ifs with hlt
  · apply ext_taken (by simp)
    intro i hi
    rw [size_assign, size_assign] at hi
    rw [taken_assign (by rwa [size_assign]), taken_assign hi]
    split_ifs with hin
    · exact (h i hin.1 hin.2 hi).symm
    · rfl
  · rfl

/-! ## Free runs -/

theorem findFirstIn_eq_some {b : Bool} {lo hi i : ℕ} (h : o.findFirstIn b lo hi = some i) :
    (lo ≤ i ∧ i < hi) ∧ o.taken i = b ∧ ∀ j, lo ≤ j → j < i → o.taken j ≠ b := by
  unfold findFirstIn at h
  rw [List.find?_range'_eq_some] at h
  obtain ⟨hbit, hmem, hfirst⟩ := h
  rw [List.mem_range'_1] at hmem
  refine ⟨by omega, by simpa using hbit, fun j hlo hlt => ?_⟩
  simpa using hfirst j hlo hlt

theorem findFirstIn_eq_none {b : Bool} {lo hi : ℕ} (h : o.findFirstIn b lo hi = none) :
    ∀ j, lo ≤ j → j < hi → o.taken j ≠ b := by
  unfold findFirstIn at h
  rw [List.find?_range'_eq_none] at h
  intro j hlo hhi
  simpa using h j hlo (by omega)

theorem gapEnd_spec {gapStart hi : ℕ} (hlt : gapStart < hi) (hfree : o.taken gapStart = false) :
    gapStart < (o.findFirstIn true gapStart hi).getD hi ∧
      (o.findFirstIn true gapStart hi).getD hi ≤ hi ∧
      (∀ j, gapStart ≤ j → j < (o.findFirstIn true gapStart hi).getD hi → o.taken j = false) := by
  cases hnext : o.findFirstIn true gapStart hi with
  | none =>
    refine ⟨hlt, le_rfl, fun j hlo hhi => ?_⟩
    simpa using findFirstIn_eq_none hnext j hlo hhi
  | some stop =>
    obtain ⟨hin, htaken, hfirst⟩ := findFirstIn_eq_some hnext
    have hne : gapStart ≠ stop := by
      rintro rfl
      rw [hfree] at htaken
      cases htaken
    refine ⟨by simpa using (by omega : gapStart < stop), hin.2.le, fun j hlo hhi => ?_⟩
    simpa using hfirst j hlo hhi

theorem free_of_mem_gapsFrom {hi : ℕ} {fuel : ℕ} {gap : MemoryRun} :
    ∀ {cursor : ℕ}, gap ∈ o.gapsFrom hi fuel cursor →
      cursor ≤ gap.start ∧ gap.stop ≤ hi ∧
        ∀ j, gap.start ≤ j → j < gap.stop → o.taken j = false := by
  induction fuel with
  | zero => exact fun h => absurd h List.not_mem_nil
  | succ fuel ih =>
    intro cursor h
    rw [gapsFrom] at h
    cases hstart : o.findFirstIn false cursor hi with
    | none =>
      rw [hstart] at h
      exact absurd h List.not_mem_nil
    | some gapStart =>
      rw [hstart] at h
      obtain ⟨hin, hfree, -⟩ := findFirstIn_eq_some hstart
      obtain ⟨hlt, hle, hrun⟩ := gapEnd_spec hin.2 hfree
      rcases List.mem_cons.1 h with rfl | h
      · have hstop : gapStart + ((o.findFirstIn true gapStart hi).getD hi - gapStart) =
            (o.findFirstIn true gapStart hi).getD hi := by omega
        simp only [MemoryRun.stop, hstop]
        exact ⟨hin.1, hle, hrun⟩
      · obtain ⟨hcursor, hrest⟩ := ih h
        exact ⟨by omega, hrest⟩

theorem exists_mem_gapsFrom {hi fuel : ℕ} : ∀ {cursor i : ℕ}, hi ≤ cursor + fuel → cursor ≤ i →
    i < hi → o.taken i = false →
    ∃ gap ∈ o.gapsFrom hi fuel cursor, gap.start ≤ i ∧ i < gap.stop := by
  induction fuel with
  | zero =>
    intro cursor i hfuel hlo hhi _
    omega
  | succ fuel ih =>
    intro cursor i hfuel hlo hhi hbit
    rw [gapsFrom]
    cases hstart : o.findFirstIn false cursor hi with
    | none => exact absurd hbit (findFirstIn_eq_none hstart i hlo hhi)
    | some gapStart =>
      obtain ⟨hin, hfree, hfirst⟩ := findFirstIn_eq_some hstart
      obtain ⟨hlt, hle, -⟩ := gapEnd_spec hin.2 hfree
      have hge : gapStart ≤ i := by
        by_contra hnot
        exact hfirst i hlo (by omega) hbit
      by_cases hend : i < (o.findFirstIn true gapStart hi).getD hi
      · exact ⟨_, List.mem_cons_self, hge, by simp only [MemoryRun.stop]; omega⟩
      · obtain ⟨gap, hmem, hgap⟩ := @ih ((o.findFirstIn true gapStart hi).getD hi) i
          (by omega) (by omega) hhi hbit
        exact ⟨gap, List.mem_cons_of_mem _ hmem, hgap⟩

theorem free_of_mem_gapsIn {lo hi : ℕ} {gap : MemoryRun} (h : gap ∈ o.gapsIn lo hi) :
    lo ≤ gap.start ∧ gap.stop ≤ min hi o.size ∧
      ∀ j, gap.start ≤ j → j < gap.stop → o.taken j = false := free_of_mem_gapsFrom h

theorem taken_eq_false_iff {i : ℕ} (hi : i < o.size) :
    o.taken i = false ↔ ∃ gap ∈ o.gapsIn 0 o.size, gap.start ≤ i ∧ i < gap.stop := by
  constructor
  · exact exists_mem_gapsFrom (by omega) (Nat.zero_le _) (by omega)
  · rintro ⟨gap, hmem, hlo, hhi⟩
    exact (free_of_mem_gapsIn hmem).2.2 i hlo hhi

/-- **The free runs of a tile say which bytes are taken.** -/
theorem ext_of_gapsIn {o o' : MemoryOccupancy} (hsize : o.size = o'.size)
    (h : o.gapsIn 0 o.size = o'.gapsIn 0 o'.size) : o = o' := by
  apply ext_taken hsize
  intro i hi
  have hiff : o.taken i = false ↔ o'.taken i = false := by
    rw [taken_eq_false_iff hi, taken_eq_false_iff (hsize ▸ hi), h]
  cases hbit : o.taken i with
  | false => exact (hiff.1 hbit).symm
  | true =>
    cases hbit' : o'.taken i with
    | false =>
      rw [hiff.2 hbit'] at hbit
      cases hbit
    | true => rfl

end MemoryOccupancy

end MlirAie.Ranked
