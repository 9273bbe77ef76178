import MlirAie.Stream.Capacity

/-!
# The capacity found is exact

Where an acquire of an exact count is taken to block, an operation that goes ahead goes ahead with
more tokens too. So a cycle that leaves every lock no worse is run again the same way: forever if the
chain loops, and for each pass that is left if it does not.

* `runOp_mono`: what a block does with more tokens;
* `Tracks`: what the analysis knows at a step;
* **`programCapacity_exact`**: what it finds, against the chain run alone.
-/

namespace MlirAie.Stream

open Lib

namespace DmaChannelProgram

variable {p : DmaChannelProgram} {x : Bool} {k n : ℕ}

/-! ## Blocks -/

/-- The bytes of a block's descriptors. -/
def gain (ops : List BdOp) : ℕ :=
  (ops.map fun
    | .dmaBd len => len
    | _ => 0).sum

def locksOf (ops : List BdOp) : List ℕ :=
  ops.filterMap fun
    | .useLock use => some use.lock
    | _ => none

theorem foldl_of_waits {ops : List BdOp} {r : Progress} (h : r.waits = true) :
    ops.foldl (p.runOp x) r = r := by
  induction ops with
  | nil => rfl
  | cons op ops ih =>
    have hop : p.runOp x r op = r := by cases op <;> simp [runOp, h]
    rw [List.foldl_cons, hop, ih]

theorem bytes_le_foldl (ops : List BdOp) (r : Progress) :
    r.bytes ≤ (ops.foldl (p.runOp x) r).bytes := by
  induction ops generalizing r with
  | nil => exact le_rfl
  | cons op ops ih =>
    refine le_trans ?_ (ih _)
    cases op with
    | useLock use =>
      simp only [runOp]
      split_ifs
      · exact le_rfl
      · split <;> exact le_rfl
    | dmaBd len =>
      simp only [runOp]
      split_ifs
      · exact le_rfl
      · exact Nat.le_add_right _ _
    | other => exact le_rfl

/-- The bytes a block adds do not change what it does. -/
theorem foldl_bytes (ops : List BdOp) (locks : ℕ → ℤ) (a b : ℕ) :
    (ops.foldl (p.runOp x) ⟨locks, a + b, false⟩) =
      { ops.foldl (p.runOp x) ⟨locks, b, false⟩ with
        bytes := a + (ops.foldl (p.runOp x) ⟨locks, b, false⟩).bytes } := by
  induction ops generalizing locks b with
  | nil => rfl
  | cons op ops ih =>
    rw [List.foldl_cons, List.foldl_cons]
    cases op with
    | useLock use =>
      simp only [runOp, Bool.false_eq_true, if_false]
      split
      · rw [foldl_of_waits (by rfl), foldl_of_waits (by rfl)]
      · exact ih _ _
    | dmaBd len =>
      simp only [runOp, Bool.false_eq_true, if_false]
      rw [Nat.add_assoc]
      exact ih _ _
    | other => exact ih _ _

/-- A block that goes through adds the bytes of its descriptors. -/
theorem foldl_gain (ops : List BdOp) (locks : ℕ → ℤ) (b : ℕ)
    (h : (ops.foldl (p.runOp x) ⟨locks, b, false⟩).waits = false) :
    (ops.foldl (p.runOp x) ⟨locks, b, false⟩).bytes = b + gain ops := by
  induction ops generalizing locks b with
  | nil => rfl
  | cons op ops ih =>
    rw [List.foldl_cons] at h ⊢
    cases op with
    | useLock use =>
      simp only [runOp, Bool.false_eq_true, if_false] at h ⊢
      cases hact : use.act p.stateLocks x (locks use.lock) with
      | none =>
        rw [hact] at h
        simp only at h
        rw [foldl_of_waits (by rfl)] at h
        cases h
      | some v =>
        rw [hact] at h
        simp only at h ⊢
        rw [ih _ _ h]
        simp [gain]
    | dmaBd len =>
      simp only [runOp, Bool.false_eq_true, if_false] at h ⊢
      rw [ih _ _ h]
      simp [gain, Nat.add_assoc]
    | other =>
      rw [show p.runOp x ⟨locks, b, false⟩ .other = ⟨locks, b, false⟩ from rfl] at h ⊢
      rw [ih _ _ h]
      simp [gain]

theorem foldl_locks_of_not_mem (ops : List BdOp) (r : Progress) {lock : ℕ}
    (h : lock ∉ locksOf ops) : (ops.foldl (p.runOp x) r).locks lock = r.locks lock := by
  induction ops generalizing r with
  | nil => rfl
  | cons op ops ih =>
    rw [List.foldl_cons]
    cases op with
    | useLock use =>
      have hne : lock ≠ use.lock ∧ lock ∉ locksOf ops := by simpa [locksOf] using h
      rw [ih _ hne.2]
      simp only [runOp]
      split_ifs
      · rfl
      · split
        · rfl
        · exact Function.update_of_ne hne.1 _ _
    | dmaBd len =>
      rw [ih _ h]
      simp only [runOp]
      split_ifs <;> rfl
    | other => exact ih _ h

/-! ## More tokens -/

theorem NoWorse.refl (locks : ℕ → ℤ) : p.NoWorse locks locks := by
  unfold NoWorse
  split_ifs
  exacts [rfl, fun _ => le_rfl]

/-- An operation that goes ahead does so with more tokens, where exact acquires wait. -/
theorem act_mono {use : UseLockOp} {v w v' : ℤ} (hw : use.act false true v = some w)
    (hle : v ≤ v') : ∃ w', use.act false true v' = some w' ∧ w ≤ w' := by
  cases haction : use.action with
  | release =>
    simp only [UseLockOp.act, haction, Bool.false_eq_true, if_false, Option.some.injEq] at hw ⊢
    exact ⟨_, rfl, by omega⟩
  | acquire => simp [UseLockOp.act, haction] at hw
  | acquireGE =>
    simp only [UseLockOp.act, haction, Bool.false_eq_true, if_false] at hw ⊢
    split_ifs at hw with hn
    obtain rfl := Option.some.inj hw
    exact ⟨_, if_pos (hn.trans hle), by omega⟩

/-- **What a block does with more tokens**: it goes through, and leaves no lock worse. -/
theorem runOp_mono (ops : List BdOp) {locks locks' : ℕ → ℤ} (hle : p.NoWorse locks locks') (b : ℕ)
    (h : (ops.foldl (p.runOp true) ⟨locks, b, false⟩).waits = false) :
    (ops.foldl (p.runOp true) ⟨locks', b, false⟩).waits = false ∧
      p.NoWorse (ops.foldl (p.runOp true) ⟨locks, b, false⟩).locks
        (ops.foldl (p.runOp true) ⟨locks', b, false⟩).locks := by
  by_cases hstate : p.stateLocks = true
  · rw [NoWorse, if_pos hstate] at hle
    subst hle
    exact ⟨h, .refl _⟩
  · rw [NoWorse, if_neg hstate] at hle
    rw [Bool.not_eq_true] at hstate
    simp only [NoWorse, hstate, Bool.false_eq_true, if_false]
    induction ops generalizing locks locks' b with
    | nil => exact ⟨rfl, hle⟩
    | cons op ops ih =>
      rw [List.foldl_cons] at h
      rw [List.foldl_cons, List.foldl_cons]
      cases op with
      | useLock use =>
        simp only [runOp, Bool.false_eq_true, if_false, hstate] at h ⊢
        cases hact : use.act false true (locks use.lock) with
        | none =>
          rw [hact] at h
          simp only at h
          rw [foldl_of_waits (by rfl)] at h
          cases h
        | some w =>
          obtain ⟨w', hact', hww⟩ := act_mono hact (hle use.lock)
          rw [hact] at h
          rw [hact']
          simp only at h ⊢
          refine ih (fun lock => ?_) b h
          by_cases hlock : lock = use.lock
          · subst hlock
            simpa using hww
          · simpa [hlock] using hle lock
      | dmaBd len =>
        simp only [runOp, Bool.false_eq_true, if_false] at h ⊢
        exact ih hle _ h
      | other => exact ih hle _ h

/-! ## The chain's run -/

def Constant (p : DmaChannelProgram) : Prop :=
  ∀ ops ∈ p.chainBlocks, ∀ use, BdOp.useLock use ∈ ops → use.amount.isSome

/-- No counting lock is waited for at an exact count. -/
def CountsUp (p : DmaChannelProgram) : Prop :=
  ∀ ops ∈ p.chainBlocks, ∀ use, BdOp.useLock use ∈ ops → use.action = .acquire →
    p.stateLocks = true

theorem block_mem (k : ℕ) {P : List BdOp → Prop} (h : ∀ ops ∈ p.chainBlocks, P ops) (hnil : P []) :
    P (p.block k) := by
  rw [block, List.getD_eq_getElem?_getD]
  cases hb : p.chainBlocks[p.blockAt k]? with
  | none => exact hnil
  | some ops => exact h ops (List.mem_of_getElem? hb)

theorem Constant.block (h : p.Constant) (k : ℕ) {use : UseLockOp}
    (huse : BdOp.useLock use ∈ p.block k) : use.amount.isSome :=
  block_mem (P := fun ops => ∀ use, BdOp.useLock use ∈ ops → use.amount.isSome) k h
    (fun _ h => absurd h List.not_mem_nil) use huse

theorem ended_mono {k k' : ℕ} (hle : k ≤ k') (h : p.ended k = true) : p.ended k' = true := by
  simp only [ended, Bool.and_eq_true, Bool.not_eq_true', decide_eq_true_eq] at h ⊢
  exact ⟨h.1, h.2.trans hle⟩

theorem run_succ_of_waits (h : (p.run x k).waits = true) : p.run x (k + 1) = p.run x k := by
  rw [run]
  split_ifs
  exacts [rfl, foldl_of_waits h]

theorem run_of_waits (h : (p.run x k).waits = true) (n : ℕ) : p.run x (k + n) = p.run x k := by
  induction n with
  | zero => rfl
  | succ n ih => rw [← Nat.add_assoc, run_succ_of_waits (by rw [ih, h]), ih]

theorem run_of_stops (h : p.Stops x k) (n : ℕ) : p.run x (k + n) = p.run x k := by
  rcases h with hw | hend
  · exact run_of_waits hw n
  · induction n with
    | zero => rfl
    | succ n ih => rw [← Nat.add_assoc, run, if_pos (ended_mono (Nat.le_add_right _ _) hend), ih]

theorem Stops.bytes_eq {k' : ℕ} (h : p.Stops x k) (h' : p.Stops x k') :
    (p.run x k).bytes = (p.run x k').bytes := by
  rcases le_total k k' with hle | hle
  · obtain ⟨n, rfl⟩ := Nat.exists_eq_add_of_le hle
    rw [run_of_stops h]
  · obtain ⟨n, rfl⟩ := Nat.exists_eq_add_of_le hle
    rw [run_of_stops h']

theorem not_waits_of_le {k k' : ℕ} (hle : k ≤ k') (h : (p.run x k').waits = false) :
    (p.run x k).waits = false := by
  obtain ⟨n, rfl⟩ := Nat.exists_eq_add_of_le hle
  rw [← Bool.not_eq_true] at h ⊢
  exact fun hk => h (by rw [run_of_waits hk, hk])

theorem progress_of_not_waits {r : Progress} (h : r.waits = false) :
    (⟨r.locks, r.bytes, false⟩ : Progress) = r := by
  rw [← h]

theorem run_succ_bytes (hend : p.ended k = false) (h : (p.run x (k + 1)).waits = false) :
    (p.run x (k + 1)).bytes = (p.run x k).bytes + gain (p.block k) := by
  have hk := not_waits_of_le (Nat.le_succ k) h
  rw [run, if_neg (by rw [hend]; exact Bool.false_ne_true)] at h ⊢
  rw [← progress_of_not_waits hk] at h ⊢
  exact foldl_gain _ _ _ h

/-- A chain that has not blocked has taken in the bytes of its blocks. -/
theorem run_bytes (hend : ∀ i < k, p.ended i = false) (h : (p.run x k).waits = false) :
    (p.run x k).bytes = ∑ i ∈ Finset.range k, gain (p.block i) := by
  induction k with
  | zero => rfl
  | succ k ih =>
    rw [run_succ_bytes (hend k k.lt_succ_self) h, Finset.sum_range_succ,
      ih (fun i hi => hend i (Nat.lt_succ_of_lt hi)) (not_waits_of_le k.le_succ h)]

/-! ## Cycles -/

theorem blockAt_period (hk : p.start ≤ k) :
    p.blockAt (k + (p.size - p.start)) = p.blockAt k := by
  rw [blockAt, blockAt, if_neg (by omega), if_neg (by omega), Nat.sub_add_comm hk,
    Nat.add_mod_right]

theorem add_period_le {c : ℕ} (hc : p.start ≤ c)
    (hcs : p.blockAt c = p.start) (hlt : c < k) (hks : p.blockAt k = p.start) :
    c + (p.size - p.start) ≤ k := by
  rw [blockAt, if_neg (by omega)] at hcs hks
  have h₁ := Nat.dvd_of_mod_eq_zero (Nat.add_eq_left.1 hcs)
  have h₂ := Nat.dvd_of_mod_eq_zero (Nat.add_eq_left.1 hks)
  have h₃ := Nat.le_of_dvd (by omega) (Nat.dvd_sub h₂ h₁)
  omega

theorem blockAt_start : p.blockAt p.start = p.start := by
  rw [blockAt, if_neg (lt_irrefl _), Nat.sub_self, Nat.zero_mod, Nat.add_zero]

def stepLocks (p : DmaChannelProgram) (k : ℕ) (locks : ℕ → ℤ) : Option (ℕ → ℤ) :=
  let r := (p.block k).foldl (p.runOp true) ⟨locks, 0, false⟩
  if r.waits then none else some r.locks

theorem stepLocks_period (hk : p.start ≤ k) :
    p.stepLocks (k + (p.size - p.start)) = p.stepLocks k := by
  funext locks
  have hblock : p.block (k + (p.size - p.start)) = p.block k := by
    rw [block, block, blockAt_period hk]
  unfold stepLocks
  rw [hblock]

theorem stepLocks_mono {locks locks' after : ℕ → ℤ} (hle : p.NoWorse locks locks')
    (h : p.stepLocks k locks = some after) :
    ∃ after', p.stepLocks k locks' = some after' ∧ p.NoWorse after after' := by
  unfold stepLocks at h ⊢
  simp only [Option.ite_none_left_eq_some] at h ⊢
  obtain ⟨hw, hafter⟩ := h
  obtain rfl := Option.some.inj hafter
  obtain ⟨hgo, hle'⟩ := runOp_mono (p.block k) hle 0 (Bool.eq_false_of_not_eq_true hw)
  exact ⟨_, ⟨by rw [hgo]; exact Bool.false_ne_true, rfl⟩, hle'⟩

theorem runFrom_stepLocks (hend : ∀ i < k + n, p.ended i = false)
    (hk : (p.run true k).waits = false) :
    runFrom p.stepLocks k n (p.run true k).locks =
      if (p.run true (k + n)).waits then none else some (p.run true (k + n)).locks := by
  induction n with
  | zero => rw [Nat.add_zero, hk]; rfl
  | succ n ih =>
    rw [runFrom_add, ih fun i hi => hend i (by omega)]
    cases hw : (p.run true (k + n)).waits with
    | true =>
      rw [← Nat.add_assoc, run_succ_of_waits hw, hw]
      rfl
    | false =>
      have hstep := foldl_bytes (p := p) (x := true) (p.block (k + n)) (p.run true (k + n)).locks
        (p.run true (k + n)).bytes 0
      rw [Nat.add_zero, progress_of_not_waits hw] at hstep
      have hrun : p.run true (k + (n + 1)) =
          (p.block (k + n)).foldl (p.runOp true) (p.run true (k + n)) := by
        rw [← Nat.add_assoc, run, if_neg (by rw [hend _ (by omega)]; exact Bool.false_ne_true)]
      rw [hrun, hstep]
      simp only [Bool.false_eq_true, if_false, Option.bind_some, runFrom, stepLocks]
      split_ifs <;> rfl

/-- **A cycle that leaves every lock no worse is run again** for as long as the chain goes on. -/
theorem Repeats.goes (hlt : p.start < p.size) (h : p.Repeats true k)
    (hend : ∀ i < n, p.ended i = false) : (p.run true n).waits = false := by
  obtain ⟨hk, hendk, c, -, hc, -, rfl, -, hle⟩ := h
  rcases le_total n (c + (p.size - p.start)) with hn | hn
  · exact not_waits_of_le hn hk
  · obtain ⟨m, rfl⟩ := Nat.exists_eq_add_of_le ((Nat.le_add_right _ _).trans hn)
    have hgo := not_waits_of_le (Nat.le_add_right _ _) hk
    have hcycle := runFrom_stepLocks (n := p.size - p.start) (fun i hi => hend i (by omega)) hgo
    rw [hk] at hcycle
    have hpos : 0 < p.size - p.start := by omega
    have hrun := runFrom_covering stepLocks_mono hpos (fun i => stepLocks_period) hc hcycle
      hle m
    rw [runFrom_stepLocks hend hgo] at hrun
    cases hw : (p.run true (c + m)).waits with
    | false => rfl
    | true =>
      rw [hw] at hrun
      cases hrun

/-! ## The analysis -/

theorem analyseOp_useLock {use : UseLockOp} (hconst : use.amount.isSome) (s : CapacityState) :
    p.analyseOp s (.useLock use) =
      (use.act p.stateLocks true (s.lockValues use.lock)).elim (.error s.bytes) fun v =>
        .ok { s with
          lockValues := Function.update s.lockValues use.lock v
          used := insert use.lock s.used } := by
  obtain ⟨n, hn⟩ := Option.isSome_iff_exists.1 hconst
  cases haction : use.action <;> cases hstate : p.stateLocks <;>
    simp only [analyseOp, UseLockOp.act, hn, haction, hstate, Option.getD_some] <;>
    grind

/-- **A block of the analysis** is a block of the run. -/
theorem foldlM_analyseOp {ops : List BdOp}
    (hconst : ∀ use, BdOp.useLock use ∈ ops → use.amount.isSome) (s : CapacityState) :
    ops.foldlM p.analyseOp s =
      let r := ops.foldl (p.runOp true) ⟨s.lockValues, s.bytes, false⟩
      if r.waits then .error r.bytes else .ok { s with
        lockValues := r.locks, bytes := r.bytes, used := s.used ∪ (locksOf ops).toFinset } := by
  induction ops generalizing s with
  | nil => simp [locksOf, pure, Except.pure]
  | cons op ops ih =>
    have htail := ih fun use h => hconst use (List.mem_cons_of_mem _ h)
    rw [List.foldlM_cons, List.foldl_cons]
    cases op with
    | useLock use =>
      rw [analyseOp_useLock (hconst use List.mem_cons_self)]
      simp only [runOp, Bool.false_eq_true, if_false]
      cases hact : use.act p.stateLocks true (s.lockValues use.lock) with
      | none =>
        simp only [Option.elim_none]
        rw [foldl_of_waits (by rfl)]
        rfl
      | some v =>
        simp only [Option.elim_some, bind, Except.bind]
        rw [htail]
        simp [locksOf, Finset.insert_union]
    | dmaBd len =>
      simp only [analyseOp, bind, Except.bind, runOp, Bool.false_eq_true, if_false]
      rw [htail]
      rfl
    | other =>
      simp only [analyseOp, bind, Except.bind]
      rw [htail]
      rfl

theorem usedLocks_succ (k : ℕ) :
    p.usedLocks (k + 1) = p.usedLocks k ∪ (locksOf (p.block k)).toFinset := by
  simp only [usedLocks, List.range_succ, List.flatMap_append, List.flatMap_singleton,
    List.toFinset_append]
  rfl

theorem usedLocks_mono {k k' : ℕ} (h : k ≤ k') : p.usedLocks k ⊆ p.usedLocks k' := by
  induction h with
  | refl => exact Finset.Subset.rfl
  | step _ ih => exact ih.trans (by rw [usedLocks_succ]; exact Finset.subset_union_left)

theorem run_locks_of_not_mem {lock : ℕ} (h : lock ∉ p.usedLocks k) :
    (p.run x k).locks lock = p.lockInit lock := by
  induction k with
  | zero => rfl
  | succ k ih =>
    rw [usedLocks_succ, Finset.notMem_union] at h
    rw [run]
    split_ifs
    · exact ih h.1
    · rw [foldl_locks_of_not_mem _ _ (by simpa using h.2), ih h.1]

/-- What the analysis knows at a step. -/
structure Tracks (p : DmaChannelProgram) (s : CapacityState) : Prop where
  locks : s.lockValues = (p.run true s.step).locks
  bytes : s.bytes = (p.run true s.step).bytes
  goes : (p.run true s.step).waits = false
  used : s.used = p.usedLocks s.step
  notEnded : ∀ k < s.step, p.ended k = false
  fresh : ∀ k < s.step, ¬ p.Repeats true k
  cycle : (s.cycle = none ∧ s.step ≤ p.start) ∨
    ∃ c, p.start ≤ c ∧ p.blockAt c = p.start ∧ c < s.step ∧ s.step ≤ c + (p.size - p.start) ∧
      s.cycle = some (p.usedLocks c, (p.run true c).locks) ∧ s.cycleBytes = (p.run true c).bytes

/-- **The analysis stops just where a cycle repeats.** -/
theorem Tracks.repeats_iff {s : CapacityState} (h : p.Tracks s) (hend : p.ended s.step = false) :
    (p.blockAt s.step = p.start ∧ p.repeats s = true) ↔ p.Repeats true s.step := by
  rcases h.cycle with ⟨hnone, hle⟩ | ⟨c, hc, hcs, hlt', hle, hcycle, -⟩
  · refine ⟨fun hr => ?_, ?_⟩
    · rw [repeats, hnone] at hr
      cases hr.2
    · rintro ⟨-, -, c, hck, hc, -⟩
      omega
  · have hworse : (∀ lock ∈ s.used, if p.stateLocks then
        s.lockValues lock = (p.run true c).locks lock else
        (p.run true c).locks lock ≤ s.lockValues lock) ↔
        p.NoWorse (p.run true c).locks (p.run true s.step).locks := by
      have hout : ∀ lock ∉ p.usedLocks s.step,
          (p.run true s.step).locks lock = (p.run true c).locks lock := fun lock hlock => by
        rw [run_locks_of_not_mem hlock,
          run_locks_of_not_mem fun h => hlock (usedLocks_mono hlt'.le h)]
      rw [h.used, h.locks, NoWorse]
      split_ifs
      · refine ⟨fun heq => funext fun lock => ?_, fun heq lock _ => by rw [heq]⟩
        by_cases hlock : lock ∈ p.usedLocks s.step
        exacts [heq lock hlock, hout lock hlock]
      · refine ⟨fun hle lock => ?_, fun hle lock _ => hle lock⟩
        by_cases hlock : lock ∈ p.usedLocks s.step
        exacts [hle lock hlock, (hout lock hlock).ge]
    have hcard : (p.usedLocks c).card = s.used.card ↔ p.usedLocks c = p.usedLocks s.step := by
      rw [h.used]
      exact ⟨fun heq => Finset.eq_of_subset_of_card_le (usedLocks_mono hlt'.le) heq.ge,
        fun heq => by rw [heq]⟩
    rw [repeats, hcycle, Option.any_some, Bool.and_eq_true, decide_eq_true_eq, decide_eq_true_eq,
      hcard, hworse]
    refine ⟨fun ⟨hs, hused, hle'⟩ => ⟨h.goes, hend, c, hlt', hc, hcs, ?_, hused, hle'⟩, ?_⟩
    · exact le_antisymm hle (add_period_le hc hcs hlt' hs)
    · rintro ⟨-, -, c', -, hc', hcs', hk, hused, hle'⟩
      have hcc : c' = c := by
        rcases lt_trichotomy c c' with hlt | heq | hlt
        · have := add_period_le hc hcs hlt hcs'
          omega
        · exact heq.symm
        · have := add_period_le hc' hcs' hlt hcs
          omega
      subst hcc
      refine ⟨?_, hused, hle'⟩
      rw [hk, blockAt_period hc', hcs']

/-! ## Passes left over -/

def passBytes (p : DmaChannelProgram) : ℕ := ∑ i ∈ Finset.range p.size, gain (p.block i)

theorem run_bytes_mul (hloops : p.loops = false) {q : ℕ}
    (hend : ∀ i < q * p.size, p.ended i = false) (h : (p.run x (q * p.size)).waits = false) :
    (p.run x (q * p.size)).bytes = q * p.passBytes := by
  have hblock : ∀ m i, p.block (m * p.size + i) = p.block i := fun m i => by
    simp [block, blockAt, start, hloops, Nat.add_comm]
  rw [run_bytes hend h]
  clear h hend
  induction q with
  | zero => simp
  | succ q ih =>
    rw [Nat.succ_mul, Finset.sum_range_add, ih, Nat.succ_mul]
    exact congrArg _ (Finset.sum_congr rfl fun i _ => by rw [hblock])

/-- **The passes left over** of a chain whose cycle repeats take in what the last one did. -/
theorem Repeats.bytes_eq (hloops : p.loops = false) (hlt : p.start < p.size)
    (h : p.Repeats true k) (hnot : ∀ i < k, p.ended i = false) {c : ℕ}
    (hc : p.blockAt c = p.start) (hk : k = c + (p.size - p.start)) :
    (p.run true (p.passes * p.size)).bytes =
      (p.run true k).bytes +
        (p.passes - k / p.size) * ((p.run true k).bytes - (p.run true c).bytes) := by
  have hstart : p.start = 0 := by simp [start, hloops]
  have hended : ∀ i, p.ended i = false ↔ i < p.passes * p.size := fun i => by
    simp [ended, hloops]
  rw [hstart, Nat.sub_zero] at hk
  rw [blockAt, hstart, if_neg c.not_lt_zero, Nat.sub_zero, Nat.zero_add, Nat.sub_zero] at hc
  obtain ⟨q, rfl⟩ := Nat.dvd_of_mod_eq_zero hc
  rw [Nat.mul_comm] at hk
  rw [← Nat.succ_mul] at hk
  rw [hstart] at hlt
  have hq : q + 1 ≤ p.passes := by
    have hlast := (hended (k - 1)).1 (hnot _ (by
      rw [hk]
      have := Nat.mul_pos q.succ_pos hlt
      omega))
    have : q * p.size < p.passes * p.size := by
      rw [hk, Nat.succ_mul] at hlast
      omega
    exact Nat.lt_of_mul_lt_mul_right this
  have hgo := h.goes (n := p.passes * p.size) (by rw [hstart]; exact hlt) fun i hi =>
    (hended i).2 hi
  have hbytes : ∀ m ≤ p.passes, (p.run true (m * p.size)).bytes = m * p.passBytes := fun m hm =>
    run_bytes_mul hloops
      (fun i hi => (hended i).2 (hi.trans_le (Nat.mul_le_mul_right _ hm)))
      (not_waits_of_le (Nat.mul_le_mul_right _ hm) hgo)
  rw [hk, hbytes _ le_rfl, hbytes _ hq, Nat.mul_comm p.size, hbytes q (by omega),
    Nat.mul_div_cancel _ hlt, ← Nat.sub_mul, Nat.succ_sub (le_refl q), Nat.sub_self]
  rw [Nat.one_mul, ← Nat.add_mul]
  congr 1
  omega

/-! ## The capacity -/

theorem Tracks.go {s : CapacityState} (h : p.Tracks s) (hlt : p.start < p.size)
    (hend : p.ended s.step = false) (hnot : ¬ p.Repeats true s.step)
    (hgo : (p.run true (s.step + 1)).waits = false) {cycle : Option (Finset ℕ × (ℕ → ℤ))}
    {cycleBytes : ℕ} (hcycle : (p.blockAt s.step = p.start ∧
      cycle = some (s.used, s.lockValues) ∧ cycleBytes = s.bytes) ∨
      (p.blockAt s.step ≠ p.start ∧ cycle = s.cycle ∧ cycleBytes = s.cycleBytes)) :
    p.Tracks {
      step := s.step + 1
      lockValues := (p.run true (s.step + 1)).locks
      used := s.used ∪ (locksOf (p.block s.step)).toFinset
      bytes := (p.run true (s.step + 1)).bytes
      cycle := cycle
      cycleBytes := cycleBytes } where
  locks := rfl
  bytes := rfl
  goes := hgo
  used := by rw [usedLocks_succ, h.used]
  notEnded := fun k hk => (Nat.lt_succ_iff_lt_or_eq.1 hk).elim (h.notEnded k) fun heq => heq ▸ hend
  fresh := fun k hk => (Nat.lt_succ_iff_lt_or_eq.1 hk).elim (h.fresh k) fun heq => heq ▸ hnot
  cycle := by
    rcases hcycle with ⟨hs, rfl, rfl⟩ | ⟨hs, rfl, rfl⟩
    · have hle : p.start ≤ s.step := by
        by_contra hlt'
        rw [blockAt, if_pos (by omega)] at hs
        omega
      exact .inr ⟨s.step, hle, hs, Nat.lt_succ_self _, by simp; omega, by rw [h.used, h.locks],
        h.bytes⟩
    · rcases h.cycle with ⟨hnone, hle⟩ | ⟨c, hc, hcs, hlt', hle, hcycle⟩
      · refine .inl ⟨hnone, Nat.succ_le_of_lt (lt_of_le_of_ne hle fun heq => hs ?_)⟩
        rw [heq, blockAt_start]
      · refine .inr ⟨c, hc, hcs, hlt'.trans (Nat.lt_succ_self _), ?_, hcycle⟩
        refine Nat.succ_le_of_lt (lt_of_le_of_ne hle fun heq => hs ?_)
        rw [heq, blockAt_period hc, hcs]

theorem CapacityExact.of_stops {b : ℕ} (h : p.Stops x k) (hb : b = (p.run x k).bytes) :
    p.CapacityExact x (some b) where
  unbounded := fun h => nomatch h
  le := fun _ hb' => ⟨k, by rw [← Option.some.inj hb', hb]⟩
  exact := fun _ hb' _ => ⟨k, h, by rw [← Option.some.inj hb', hb]⟩

theorem Tracks.exact_of_repeats {s : CapacityState} (h : p.Tracks s) (hlt : p.start < p.size)
    (hr : p.Repeats true s.step) (hs : p.blockAt s.step = p.start) :
    p.CapacityExact true (if p.loops then none
      else some (s.bytes + (p.passes - s.step / p.size) * (s.bytes - s.cycleBytes))) := by
  cases hloops : p.loops with
  | true =>
    have hend : ∀ k, p.ended k = false := fun k => by simp [ended, hloops]
    rw [if_pos rfl]
    exact ⟨fun _ => ⟨hloops, fun k => hr.goes hlt fun i _ => hend i⟩, fun _ h => (nomatch h),
      fun _ h => (nomatch h)⟩
  | false =>
    refine .of_stops (k := p.passes * p.size) (.inr (by simp [ended, hloops])) ?_
    rcases h.cycle with ⟨-, hle⟩ | ⟨c, hc, hcs, hlt', hle, -, hbytes⟩
    · obtain ⟨-, -, c, hck, hc, -⟩ := hr
      omega
    · rw [hr.bytes_eq hloops hlt h.notEnded hcs (le_antisymm hle (add_period_le hc hcs hlt' hs)),
        h.bytes, hbytes]

theorem Tracks.atStep_exact {s : CapacityState} (h : p.Tracks s) (hlt : p.start < p.size)
    {next : CapacityState → Option ℕ}
    (hnext : p.ended s.step = false → ¬ p.Repeats true s.step → ∀ cycle cycleBytes,
      (p.blockAt s.step = p.start ∧ cycle = some (s.used, s.lockValues) ∧ cycleBytes = s.bytes) ∨
        (p.blockAt s.step ≠ p.start ∧ cycle = s.cycle ∧ cycleBytes = s.cycleBytes) →
      p.CapacityExact true (next { s with cycle := cycle, cycleBytes := cycleBytes })) :
    p.CapacityExact true (p.atStep s next) := by
  rw [atStep]
  cases hend : p.ended s.step with
  | true => exact .of_stops (.inr hend) h.bytes
  | false =>
    have hiff := h.repeats_iff hend
    rw [if_neg Bool.false_ne_true]
    by_cases hr : p.blockAt s.step = p.start ∧ p.repeats s = true
    · rw [if_pos hr]
      exact h.exact_of_repeats hlt (hiff.1 hr) hr.1
    · rw [if_neg hr]
      rw [hiff] at hr
      by_cases hs : p.blockAt s.step = p.start
      · rw [if_pos hs]
        exact hnext hend hr _ _ (.inl ⟨hs, rfl, rfl⟩)
      · rw [if_neg hs]
        exact hnext hend hr s.cycle s.cycleBytes (.inr ⟨hs, rfl, rfl⟩)

/-- **The analysis from a state it tracks** finds what the chain takes in. -/
theorem Tracks.capacityFrom_exact (hconst : p.Constant) (hlt : p.start < p.size) {s : CapacityState}
    (h : p.Tracks s) (hn : s.step + n = maxBDSteps) :
    p.CapacityExact true (p.capacityFrom n s) := by
  induction n generalizing s with
  | zero =>
    refine h.atStep_exact hlt fun hend hnot cycle cycleBytes _ => ?_
    refine ⟨fun h => (nomatch h), fun b hb => ⟨s.step, ?_⟩, fun b _ ⟨k, hk, hstop⟩ => ?_⟩
    · rw [← Option.some.inj hb, h.bytes]
    -- the analysis has seen every step up to its limit
    · rcases Nat.lt_or_eq_of_le (hk.trans hn.ge : k ≤ s.step) with hk | rfl
      · rcases hstop with (hw | he) | hr
        · rw [not_waits_of_le hk.le h.goes] at hw
          cases hw
        · rw [h.notEnded k hk] at he
          cases he
        · exact absurd hr (h.fresh k hk)
      · rcases hstop with (hw | he) | hr
        · rw [h.goes] at hw
          cases hw
        · rw [hend] at he
          cases he
        · exact absurd hr hnot
  | succ n ih =>
    refine h.atStep_exact hlt fun hend hnot cycle cycleBytes hcycle => ?_
    have hrun : p.run true (s.step + 1) =
        (p.block s.step).foldl (p.runOp true) ⟨s.lockValues, s.bytes, false⟩ := by
      rw [run, if_neg (by rw [hend]; exact Bool.false_ne_true), h.locks, h.bytes,
        progress_of_not_waits h.goes]
    simp only [foldlM_analyseOp fun use huse => hconst.block s.step huse, ← hrun]
    cases hw : (p.run true (s.step + 1)).waits with
    | true => exact .of_stops (.inl hw) rfl
    | false => exact ih (h.go hlt hend hnot hw hcycle) (by simp only; omega)

theorem start_lt_size (h : p.chainBlocks ≠ []) : p.start < p.size := by
  rw [start]
  split_ifs with hloops
  exacts [p.loopStart_lt hloops h, List.length_pos_iff.2 h]

theorem Tracks.initial (p : DmaChannelProgram) : p.Tracks { lockValues := p.lockInit } where
  locks := rfl
  bytes := rfl
  goes := rfl
  used := rfl
  notEnded := fun _ hk => absurd hk (Nat.not_lt_zero _)
  fresh := fun _ hk => absurd hk (Nat.not_lt_zero _)
  cycle := .inl ⟨rfl, Nat.zero_le _⟩

/-- A chain without descriptors takes in nothing. -/
theorem run_nil (h : p.chainBlocks = []) (k : ℕ) : p.run x k = { locks := p.lockInit } := by
  induction k with
  | zero => rfl
  | succ k ih =>
    rw [run, ih]
    split_ifs
    · rfl
    · rw [block, h]
      rfl

/-! ## Acquires of an exact count -/

/-- A chain in which they wait is no further than the chain itself, and is where the chain is unless
it waits. -/
def Behind (r r' : Progress) : Prop := r = r' ∨ r.waits = true ∧ r.bytes ≤ r'.bytes

theorem act_of_exact {use : UseLockOp} {b : Bool} {v w : ℤ} (h : use.act b true v = some w) :
    use.act b false v = some w := by
  cases haction : use.action <;> cases b <;> simp_all [UseLockOp.act]

theorem Behind.foldl (ops : List BdOp) {r r' : Progress} (h : Behind r r') :
    Behind (ops.foldl (p.runOp true) r) (ops.foldl (p.runOp false) r') := by
  induction ops generalizing r r' with
  | nil => exact h
  | cons op ops ih =>
    refine ih ?_
    rcases h with rfl | ⟨hw, hle⟩
    · cases op with
      | useLock use =>
        simp only [runOp]
        split_ifs with hw
        · exact .inl rfl
        · cases hact : use.act p.stateLocks true (r.locks use.lock) with
          | none =>
            refine .inr ⟨rfl, ?_⟩
            cases use.act p.stateLocks false (r.locks use.lock) <;> exact le_refl r.bytes
          | some w =>
            rw [act_of_exact hact]
            exact .inl rfl
      | dmaBd len => exact .inl rfl
      | other => exact .inl rfl
    · refine .inr ⟨?_, ?_⟩
      · cases op <;> simp [runOp, hw]
      · have hop : p.runOp true r op = r := by cases op <;> simp [runOp, hw]
        rw [hop]
        exact hle.trans (bytes_le_foldl [op] r')

theorem run_behind (p : DmaChannelProgram) (k : ℕ) : Behind (p.run true k) (p.run false k) := by
  induction k with
  | zero => exact .inl rfl
  | succ k ih =>
    rw [run, run]
    split_ifs
    exacts [ih, ih.foldl _]

theorem runOp_exact {op : BdOp} (h : ∀ use, op = .useLock use → use.action = .acquire →
    p.stateLocks = true) (r : Progress) : p.runOp true r op = p.runOp false r op := by
  cases op with
  | useLock use =>
    have hact : ∀ v, use.act p.stateLocks true v = use.act p.stateLocks false v := fun v => by
      cases haction : use.action with
      | release => simp [UseLockOp.act, haction]
      | acquire => simp [UseLockOp.act, haction, h use rfl haction]
      | acquireGE => simp [UseLockOp.act, haction]
    simp only [runOp, hact]
  | dmaBd len => rfl
  | other => rfl

theorem run_exact (h : p.CountsUp) (k : ℕ) : p.run true k = p.run false k := by
  induction k with
  | zero => rfl
  | succ k ih =>
    rw [run, run, ih]
    split_ifs
    · rfl
    · have hops : ∀ op ∈ p.block k, ∀ use, op = .useLock use → use.action = .acquire →
          p.stateLocks = true := block_mem (P := fun ops => ∀ op ∈ ops, ∀ use, op = .useLock use →
            use.action = .acquire → p.stateLocks = true) k
        (fun ops hops op hop use heq => h ops hops use (heq ▸ hop))
        fun _ h => absurd h List.not_mem_nil
      exact List.foldl_ext _ _ _ fun r op hop => runOp_exact (hops op hop) r

/-- **The capacity of a statically programmed chain**, where an acquire of an exact count is taken
to wait: no bound only of a chain that never blocks, and otherwise just what the chain takes in,
unless the analysis reached its limit. The chain itself then takes in no less. -/
theorem programCapacity_exact (p : DmaChannelProgram) (hstatic : p.isStatic = true)
    (hconst : p.Constant) :
    p.CapacityExact true p.programCapacity ∧
      (p.programCapacity = none → p.loops = true ∧ ∀ k, (p.run false k).waits = false) ∧
      (∀ b, p.programCapacity = some b → ∃ k, b ≤ (p.run false k).bytes) ∧
      (p.CountsUp → p.CapacityExact false p.programCapacity) := by
  have hexact : p.CapacityExact true p.programCapacity := by
    rw [programCapacity, hstatic]
    by_cases hnil : p.chainBlocks = []
    · rw [if_neg (by decide), if_pos hnil]
      refine ⟨fun h => (nomatch h), fun b hb => ⟨0, (Option.some.inj hb).ge⟩, ?_⟩
      rintro b hb ⟨k, -, hstop | ⟨-, -, c, hck, -, -, hk, -⟩⟩
      · exact ⟨k, hstop, by rw [run_nil hnil, ← Option.some.inj hb]⟩
      · have hsize : p.size = 0 := by rw [size, hnil, List.length_nil]
        omega
    · rw [if_neg (by decide), if_neg hnil]
      exact (Tracks.initial p).capacityFrom_exact hconst (start_lt_size hnil) (Nat.zero_add _)
  refine ⟨hexact, fun hnone => ?_, fun b hb => ?_, fun hup => ?_⟩
  · obtain ⟨hloops, hgo⟩ := hexact.unbounded hnone
    refine ⟨hloops, fun k => ?_⟩
    rcases run_behind p k with heq | ⟨hw, -⟩
    · rw [← heq, hgo k]
    · rw [hgo k] at hw
      cases hw
  · obtain ⟨k, hk⟩ := hexact.le b hb
    refine ⟨k, hk.trans ?_⟩
    rcases run_behind p k with heq | ⟨-, hle⟩
    exacts [heq ▸ le_rfl, hle]
  · have hrun : p.run true = p.run false := funext (run_exact hup)
    refine ⟨?_, ?_, ?_⟩
    · rw [← hrun]
      exact hexact.unbounded
    · rw [← hrun]
      exact hexact.le
    · simpa only [Stops, Repeats, hrun] using hexact.exact

/-- A channel with one descriptor, that takes a token of a counting lock for each pass. -/
def takeToken (action : LockAction) (init : ℤ) (passes : ℕ) : DmaChannelProgram where
  stateLocks := false
  init := fun _ => some init
  bds := [[.useLock ⟨0, action, some 1⟩, .dmaBd 64]]
  passes := passes
  loopStart_lt := fun h => absurd h Bool.false_ne_true

theorem takeToken_constant (action : LockAction) (init : ℤ) (passes : ℕ) :
    (takeToken action init passes).Constant := by
  intro ops hops use huse
  obtain rfl : ops = _ := List.mem_singleton.1 hops
  have : use = ⟨0, action, some 1⟩ := by simpa using huse
  rw [this]
  rfl

theorem takeToken_exact : (takeToken .acquireGE 2 3).programCapacity = some 128 ∧
    (takeToken .acquireGE 2 3).CapacityExact true (takeToken .acquireGE 2 3).programCapacity :=
  ⟨rfl, (programCapacity_exact (takeToken .acquireGE 2 3) rfl (takeToken_constant _ _ _)).1⟩

/-- An exact acquire that finds its count: the chain takes in a buffer, and none is found. -/
theorem programCapacity_exactAcquire : ¬ ∀ p : DmaChannelProgram, p.isStatic = true → p.Constant →
    p.CapacityExact false p.programCapacity := by
  intro h
  have hends : (takeToken .acquire 1 1).Stops false 1 := .inr rfl
  obtain ⟨k, hk, hbytes⟩ :=
    (h (takeToken .acquire 1 1) rfl (takeToken_constant _ _ _)).exact 0 rfl
      ⟨1, by decide, .inl hends⟩
  rw [hk.bytes_eq hends] at hbytes
  exact absurd hbytes (by decide)

end DmaChannelProgram

end MlirAie.Stream
