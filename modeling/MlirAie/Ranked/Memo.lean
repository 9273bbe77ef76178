import MlirAie.Ranked.Search

/-!
# The memo of the placement search

The candidates of a buffer depend on the free runs alone, so a subproblem that failed fails again
wherever the search meets it: the memo changes what the search spends, not what it finds.

* `Tile.Noted`: what the memo holds fails; `stateKey_inj`: a key names one subproblem;
* `solvable_of_found`, `unsolvable_of_failed`, `run_within`: what a search finds and spends;
* **`run_transparent`**.
-/

namespace MlirAie.Ranked

open MlirAie.Lib

/-! ## Keys -/

theorem flatMap_runs_inj {gaps gaps' : List MemoryRun}
    (h : (gaps.flatMap fun gap => [gap.start, gap.size]) =
      gaps'.flatMap fun gap => [gap.start, gap.size]) : gaps = gaps' := by
  induction gaps generalizing gaps' with
  | nil =>
    cases gaps' with
    | nil => rfl
    | cons gap' gaps' => simp at h
  | cons gap gaps ih =>
    cases gaps' with
    | nil => simp at h
    | cons gap' gaps' =>
      obtain ⟨start, size⟩ := gap
      obtain ⟨start', size'⟩ := gap'
      simp only [List.flatMap_cons, List.cons_append, List.nil_append, List.cons.injEq] at h
      rw [ih h.2.2, h.1, h.2.1]

/-- **A key names one subproblem** of the tile. -/
theorem stateKey_inj {index index' : ℕ} {o o' : MemoryOccupancy} (hsize : o.size = o'.size)
    (h : stateKey index o = stateKey index' o') : index = index' ∧ o = o' := by
  obtain ⟨hindex, hruns⟩ := List.cons.inj h
  exact ⟨hindex, MemoryOccupancy.ext_of_gapsIn hsize (flatMap_runs_inj hruns)⟩

namespace Tile

variable (T : Tile)

/-! ## What there is to find -/

/-- What can be tried for a buffer that waits. -/
def spots (b : ℕ) (o : MemoryOccupancy) : List (ℕ × ℤ) :=
  (T.rankedPlacements b (T.keptBank b) 0 0 o).map Placement.spot

/-- **Some choice of candidates** places every buffer. -/
def Solvable : List ℕ → MemoryOccupancy → Prop
  | [], _ => True
  | b :: order, o => ∃ at' ∈ T.spots b o, Solvable order (o.markOccupied at'.1 (at'.1 + T.size b))

/-- How many placements a search without memo tries at most. -/
def attempts : List ℕ → MemoryOccupancy → ℕ
  | [], _ => 0
  | b :: order, o => ((T.raw b (T.keptBank b) 0 0 o).map fun p =>
      1 + attempts order (o.markOccupied p.addr (p.addr + T.size b))).sum

/-- What is remembered of a search of `full` on a tile of `n` bytes fails. -/
def Noted (full : List ℕ) (n : ℕ) (k : Spent) : Prop :=
  ∀ index o, o.size = n → stateKey index o ∈ k.failedStates → ¬ T.Solvable (full.drop index) o

variable {T}

theorem mem_spots_of_ranked {b : ℕ} {order : List ℕ} {s : TileState} {start cap : ℤ}
    {p : Placement} (hq : T.Queued (b :: order) s)
    (hp : p ∈ T.rankedPlacements b (s.attrs b).memBank start cap s.occupancy) :
    p.spot ∈ T.spots b s.occupancy := by
  rw [hq b List.mem_cons_self] at hp
  exact (spots_ranked start cap 0 0).1 (List.mem_map_of_mem hp)

theorem exists_ranked_of_spot {b : ℕ} {order : List ℕ} {s : TileState} (start cap : ℤ)
    {at' : ℕ × ℤ} (hq : T.Queued (b :: order) s) (h : at' ∈ T.spots b s.occupancy) :
    ∃ p ∈ T.rankedPlacements b (s.attrs b).memBank start cap s.occupancy, p.spot = at' := by
  rw [hq b List.mem_cons_self]
  exact List.mem_map.1 ((spots_ranked start cap 0 0).2 h)

/-! ## What a search finds -/

theorem attempt_found {deeper : ℤ → TileState → Spent → Outcome TileState Spent} {index b : ℕ}
    {start : ℤ} {p : Placement} {s : TileState} {k : Spent}
    (h : (T.attempt deeper index b start p s k).found = true) :
    (deeper (T.nextBank b start p) (T.placeBuffer b p.addr p.bank s)
      k.spend).found = true := by
  unfold attempt at h
  by_cases hbudget : k.budget ≤ 0
  · simp [hbudget] at h
  · simp only [hbudget, ↓reduceIte] at h
    by_contra hnot
    simp [hnot] at h

theorem solvable_of_found (memo : Bool) {order : List ℕ} (hnodup : order.Nodup) :
    ∀ {index : ℕ} {start remaining : ℤ} {s : TileState} {k : Spent}, T.Queued order s →
      (T.run memo order index start remaining s k).found = true → T.Solvable order s.occupancy := by
  induction order with
  | nil => exact fun _ _ => trivial
  | cons b order ih =>
    intro index start remaining s k hq hfound
    obtain ⟨hb, hnodup⟩ := List.nodup_cons.1 hnodup
    unfold run at hfound
    simp only at hfound
    by_cases hmemo : memo = true ∧ stateKey index s.occupancy ∈ k.failedStates
    · rw [if_pos hmemo] at hfound
      cases hfound
    · rw [if_neg hmemo, remember_found] at hfound
      obtain ⟨p, hp, k', hone, -⟩ := tryEach_found (undoes_loop index b start
        (remaining - T.size b) hq hb fun nextBank s hs =>
          run_undoes memo hnodup (index + 1) nextBank (remaining - T.size b) s hs) hfound
      have hdeeper := attempt_found hone
      exact ⟨p.spot, mem_spots_of_ranked hq hp, ih hnodup (hq.place hb) hdeeper⟩

@[simp] theorem recordDeepest_exhausted (k : Spent) (index b : ℕ) (s : TileState) :
    (k.recordDeepest index b s).exhausted = k.exhausted := by
  unfold Spent.recordDeepest
  split_ifs <;> rfl

@[simp] theorem recordDeepest_failedStates (k : Spent) (index b : ℕ) (s : TileState) :
    (k.recordDeepest index b s).failedStates = k.failedStates := by
  unfold Spent.recordDeepest
  split_ifs <;> rfl

@[simp] theorem recordDeepest_budget (k : Spent) (index b : ℕ) (s : TileState) :
    (k.recordDeepest index b s).budget = k.budget := by
  unfold Spent.recordDeepest
  split_ifs <;> rfl

/-- An attempt with a budget is the deeper call. -/
theorem attempt_spent (deeper : ℤ → TileState → Spent → Outcome TileState Spent) (index b : ℕ)
    (start : ℤ) (p : Placement) (s : TileState) {k : Spent} (hbudget : 0 < k.budget) {r}
    (hr : r = deeper (T.nextBank b start p) (T.placeBuffer b p.addr p.bank s) k.spend) :
    (T.attempt deeper index b start p s k).found = r.found ∧
      (T.attempt deeper index b start p s k).spent.exhausted = r.spent.exhausted ∧
      (T.attempt deeper index b start p s k).spent.failedStates = r.spent.failedStates ∧
      (T.attempt deeper index b start p s k).spent.budget = r.spent.budget := by
  unfold attempt
  rw [if_neg (not_le.2 hbudget), ← hr]
  simp only
  cases hfound : r.found with
  | true => simp [hfound]
  | false => simp

theorem budget_of_attempt {deeper : ℤ → TileState → Spent → Outcome TileState Spent}
    {index b : ℕ} {start : ℤ} {p : Placement} {s : TileState} {k : Spent}
    (h : (T.attempt deeper index b start p s k).spent.exhausted = false) : 0 < k.budget := by
  by_contra hnot
  unfold attempt at h
  rw [if_pos (not_lt.1 hnot)] at h
  cases h

theorem exhausted_of_attempt {deeper : ℤ → TileState → Spent → Outcome TileState Spent}
    {index b : ℕ} {order : List ℕ} {start : ℤ} {p : Placement} {s : TileState} {k : Spent}
    (hq : T.Queued (b :: order) s) (hb : b ∉ order)
    (hdeeper : ∀ nextBank s k, T.Queued order s →
      (deeper nextBank s k).spent.exhausted = false → k.exhausted = false)
    (h : (T.attempt deeper index b start p s k).spent.exhausted = false) : k.exhausted = false := by
  obtain ⟨-, hsame, -⟩ := attempt_spent deeper index b start p s (budget_of_attempt h) rfl
  rw [hsame] at h
  have hfirst := hdeeper _ _ _ (hq.place hb) h
  exact hfirst

theorem exhausted_of_run (memo : Bool) {order : List ℕ} (hnodup : order.Nodup) :
    ∀ (index : ℕ) (start remaining : ℤ) (s : TileState) (k : Spent), T.Queued order s →
      (T.run memo order index start remaining s k).spent.exhausted = false →
      k.exhausted = false := by
  induction order with
  | nil => exact fun _ _ _ _ _ _ h => h
  | cons b order ih =>
    intro index start remaining s k hq h
    obtain ⟨hb, hnodup⟩ := List.nodup_cons.1 hnodup
    unfold run at h
    simp only at h
    by_cases hmemo : memo = true ∧ stateKey index s.occupancy ∈ k.failedStates
    · rwa [if_pos hmemo] at h
    · rw [if_neg hmemo, remember_exhausted] at h
      have hback := @tryEach_spent _ _ _ _ _ _ (fun k : Spent => k.exhausted = false)
        (undoes_loop index b start (remaining - T.size b) hq hb fun nextBank s hs =>
          run_undoes memo hnodup (index + 1) nextBank (remaining - T.size b) s hs)
        (fun p _ k hk => exhausted_of_attempt hq hb
          (fun nextBank s k hs => ih hnodup (index + 1) nextBank _ s k hs) hk) _ h
      split_ifs at hback with hnone
      · rwa [recordDeepest_exhausted] at hback
      · exact hback

theorem Noted.congr {full : List ℕ} {n : ℕ} {k k' : Spent} (h : T.Noted full n k)
    (hsame : k'.failedStates = k.failedStates) : T.Noted full n k' := by
  intro index o ho hin
  rw [hsame] at hin
  exact h index o ho hin

/-- A subproblem that fails is noted. -/
theorem Noted.remember {full : List ℕ} {n index : ℕ} {o : MemoryOccupancy}
    {r : Outcome TileState Spent} (h : T.Noted full n r.spent) (hn : o.size = n)
    (hfails : ¬ T.Solvable (full.drop index) o) :
    T.Noted full n (Ranked.Tile.remember (stateKey index o) r).spent := by
  unfold Ranked.Tile.remember
  split_ifs
  · exact h
  · exact h
  · intro i o' ho' hin
    rcases List.mem_cons.1 hin with hkey | hin
    · obtain ⟨rfl, rfl⟩ := stateKey_inj (ho'.trans hn.symm) hkey
      exact hfails
    · exact h i o' ho' hin

/-- **A search that fails within its budget has nothing to find**, and what it remembers fails. -/
theorem unsolvable_of_failed (memo : Bool) {full : List ℕ} {n : ℕ} {order : List ℕ}
    (hnodup : order.Nodup) :
    ∀ (index : ℕ) (start remaining : ℤ) (s : TileState) (k : Spent), order = full.drop index →
      s.occupancy.size = n → T.Queued order s → T.Noted full n k →
      (T.run memo order index start remaining s k).found = false →
      (T.run memo order index start remaining s k).spent.exhausted = false →
      ¬ T.Solvable order s.occupancy ∧
        T.Noted full n (T.run memo order index start remaining s k).spent := by
  induction order with
  | nil =>
    intro index start remaining s k _ _ _ _ hfail
    cases hfail
  | cons b order ih =>
    intro index start remaining s k hdrop hn hq hnoted hfail hwithin
    obtain ⟨hb, hnodup⟩ := List.nodup_cons.1 hnodup
    have hnext : order = full.drop (index + 1) := by
      rw [← List.tail_drop, ← hdrop, List.tail_cons]
    unfold run at hfail hwithin ⊢
    simp only at hfail hwithin ⊢
    by_cases hmemo : memo = true ∧ stateKey index s.occupancy ∈ k.failedStates
    · rw [if_pos hmemo]
      refine ⟨?_, hnoted⟩
      rw [hdrop]
      exact hnoted index s.occupancy hn hmemo.2
    · rw [if_neg hmemo] at hfail hwithin ⊢
      rw [remember_found] at hfail
      rw [remember_exhausted] at hwithin
      -- each candidate of the loop failed, and what its deeper calls noted stands
      have hloop := @tryEach_failed _ _ _ _ _ _ (fun k : Spent => k.exhausted = false)
        (T.Noted full n) (fun p : Placement => ¬ T.Solvable order
          (s.occupancy.markOccupied p.addr (p.addr + T.size b)))
        (undoes_loop index b start (remaining - T.size b) hq hb fun nextBank s hs =>
          run_undoes memo hnodup (index + 1) nextBank (remaining - T.size b) s hs)
        (fun p _ k hk => exhausted_of_attempt hq hb
          (fun nextBank s k hs => exhausted_of_run memo hnodup (index + 1) nextBank _ s k hs) hk)
        (fun p _ k hk hpfail hpwithin => by
          obtain ⟨hfound, hspent, hkeys, -⟩ := attempt_spent (fun nextBank =>
            T.run memo order (index + 1) nextBank (remaining - T.size b)) index b start p s
            (budget_of_attempt hpwithin) rfl
          rw [hfound] at hpfail
          rw [hspent] at hpwithin
          have hdeeper := ih hnodup (index + 1) (T.nextBank b start p) (remaining - T.size b)
            (T.placeBuffer b p.addr p.bank s) k.spend hnext
            (MemoryOccupancy.size_markOccupied.trans hn) (hq.place hb) (hk.congr rfl) hpfail
            hpwithin
          exact ⟨hdeeper.1, hdeeper.2.congr hkeys⟩) _
        (hnoted.congr (by split_ifs <;> simp)) hfail hwithin
      have hnone : ¬ T.Solvable (b :: order) s.occupancy := by
        rintro ⟨at', hat, hsol⟩
        obtain ⟨p, hp, rfl⟩ := exists_ranked_of_spot start (remaining - T.size b) hq hat
        exact hloop.1 p hp hsol
      exact ⟨hnone, hloop.2.remember hn (hdrop ▸ hnone)⟩

theorem sum_candidates_le {b : ℕ} {order : List ℕ} {s : TileState} (start cap : ℤ)
    (hq : T.Queued (b :: order) s) :
    ((T.rankedPlacements b (s.attrs b).memBank start cap s.occupancy).map fun p =>
      1 + T.attempts order (s.occupancy.markOccupied p.addr (p.addr + T.size b))).sum ≤
      T.attempts (b :: order) s.occupancy := by
  rw [hq b List.mem_cons_self]
  exact T.sum_ranked_le fun at' =>
    1 + T.attempts order (s.occupancy.markOccupied at'.1 (at'.1 + T.size b))

/-- **A search spends no more than it may try.** -/
theorem run_within (memo : Bool) {order : List ℕ} (hnodup : order.Nodup) :
    ∀ (index : ℕ) (start remaining : ℤ) (s : TileState) (k : Spent), T.Queued order s →
      k.exhausted = false → (T.attempts order s.occupancy : ℤ) ≤ k.budget →
      (T.run memo order index start remaining s k).spent.exhausted = false ∧
        k.budget - T.attempts order s.occupancy ≤
          (T.run memo order index start remaining s k).spent.budget := by
  induction order with
  | nil =>
    intro index start remaining s k _ hk _
    exact ⟨hk, by simp [run, attempts]⟩
  | cons b order ih =>
    intro index start remaining s k hq hk hle
    obtain ⟨hb, hnodup⟩ := List.nodup_cons.1 hnodup
    have hcost := sum_candidates_le start (remaining - T.size b) hq
    have hstep : ∀ p ∈ T.rankedPlacements b (s.attrs b).memBank start (remaining - T.size b)
        s.occupancy, ∀ k : Spent, k.exhausted = false →
        ((1 + T.attempts order (s.occupancy.markOccupied p.addr (p.addr + T.size b)) : ℕ) : ℤ) ≤
          k.budget →
        (T.attempt (fun nextBank => T.run memo order (index + 1) nextBank
            (remaining - T.size b)) index b start p s k).spent.exhausted = false ∧
          k.budget - ((1 + T.attempts order
            (s.occupancy.markOccupied p.addr (p.addr + T.size b)) : ℕ) : ℤ) ≤
            (T.attempt (fun nextBank => T.run memo order (index + 1) nextBank
              (remaining - T.size b)) index b start p s k).spent.budget := by
      intro p _ k hk hone
      rw [Nat.cast_add, Nat.cast_one] at hone ⊢
      obtain ⟨-, hspent, -, hleft⟩ := attempt_spent (fun nextBank =>
        T.run memo order (index + 1) nextBank (remaining - T.size b)) index b start p s
        (show 0 < k.budget by omega) rfl
      rw [hspent, hleft]
      have hdeeper := ih hnodup (index + 1) (T.nextBank b start p) (remaining - T.size b)
        (T.placeBuffer b p.addr p.bank s) k.spend (hq.place hb) hk (by
          change _ ≤ k.budget - 1
          change ((T.attempts order (s.occupancy.markOccupied p.addr (p.addr + T.size b)) : ℕ)
            : ℤ) ≤ _
          omega)
      have hbudget : k.spend.budget = k.budget - 1 := rfl
      have hoccupancy : (T.placeBuffer b p.addr p.bank s).occupancy =
          s.occupancy.markOccupied p.addr (p.addr + T.size b) := rfl
      rw [hbudget, hoccupancy] at hdeeper
      exact ⟨hdeeper.1, by omega⟩
    unfold run
    simp only
    by_cases hmemo : memo = true ∧ stateKey index s.occupancy ∈ k.failedStates
    · rw [if_pos hmemo]
      exact ⟨hk, by simp only; omega⟩
    · rw [if_neg hmemo, remember_exhausted, remember_budget]
      have hloop := @tryEach_within _ _ _ _ _ _ (fun k : Spent => k.exhausted = false)
        (fun k : Spent => k.budget) _
        (undoes_loop index b start (remaining - T.size b) hq hb fun nextBank s hs =>
          run_undoes memo hnodup (index + 1) nextBank (remaining - T.size b) s hs) hstep
      split_ifs with hnone
      · have hkept : (k.recordDeepest index b s).exhausted = false := by
          rwa [recordDeepest_exhausted]
        obtain ⟨hlast, hrest⟩ := hloop hkept (by rw [recordDeepest_budget]; omega)
        rw [recordDeepest_budget] at hrest
        exact ⟨hlast, by omega⟩
      · obtain ⟨hlast, hrest⟩ := hloop hk (by omega)
        exact ⟨hlast, by omega⟩

theorem run_found_iff (memo : Bool) {order : List ℕ} (hnodup : order.Nodup) {s : TileState}
    (hq : T.Queued order s) (start remaining : ℤ) {budget : ℤ}
    (hbudget : (T.attempts order s.occupancy : ℤ) ≤ budget) :
    (T.run memo order 0 start remaining s { budget := budget }).found = true ↔
      T.Solvable order s.occupancy := by
  constructor
  · exact solvable_of_found memo hnodup hq
  · intro hsol
    by_contra hfail
    have hwithin := (run_within memo hnodup 0 start remaining s { budget := budget } hq rfl
      hbudget).1
    have hnone : T.Noted order s.occupancy.size { budget := budget } :=
      fun _ _ _ hin => absurd hin List.not_mem_nil
    exact (unsolvable_of_failed memo hnodup 0 start remaining s _ List.drop_zero.symm rfl hq hnone
      (Bool.not_eq_true _ ▸ hfail) hwithin).1 hsol

/-- **The search is transparent on failure, and its memo is sound**: where it fails every bit and
every attribute is as before, and with budget enough it succeeds as it does without its memo. -/
theorem run_transparent {T : Tile} {order : List ℕ} {s : TileState} (hnodup : order.Nodup)
    (hq : T.Queued order s) (startBankIndex remaining : ℤ) :
    (∀ budget, (T.run true order 0 startBankIndex remaining s { budget := budget }).found = false →
      (T.run true order 0 startBankIndex remaining s { budget := budget }).state = s) ∧
    ∃ enough : ℤ, ∀ budget budget', enough ≤ budget → enough ≤ budget' →
      (T.run true order 0 startBankIndex remaining s { budget := budget }).found =
        (T.run false order 0 startBankIndex remaining s { budget := budget' }).found := by
  constructor
  · intro budget hfail
    exact run_undoes true hnodup 0 startBankIndex remaining s hq _ hfail
  · refine ⟨T.attempts order s.occupancy, fun budget budget' hle hle' => ?_⟩
    rw [Bool.eq_iff_iff, run_found_iff true hnodup hq _ _ hle,
      run_found_iff false hnodup hq _ _ hle']

def fourBytes : Tile where
  ctx := { numBanks := 1, bankSize := 4, maxDataMemorySize := 4, hasCore := true }
  buffer := fun _ => { size := 3, alignBytes := fun _ => 1, alignBytes_pos := fun _ => one_pos }
  requiredBanks := fun _ => none

def fourBytesFree : TileState := ⟨⟨[false, false, false, false]⟩, fun _ => {}, []⟩

/-- The second finds no room, and the first is taken back. -/
theorem fourBytes_transparent :
    (fourBytes.run true [0, 1] 0 0 6 fourBytesFree { budget := 10 }).found = false ∧
      (fourBytes.run true [0, 1] 0 0 6 fourBytesFree { budget := 10 }).state = fourBytesFree := by
  have hfail : (fourBytes.run true [0, 1] 0 0 6 fourBytesFree { budget := 10 }).found = false := by
    decide +kernel
  exact ⟨hfail, (run_transparent (by decide) (fun _ _ => rfl) 0 6).1 10 hfail⟩

end Tile

end MlirAie.Ranked
