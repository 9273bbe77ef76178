import MlirAie.Lib.Backtrack
import MlirAie.Ranked.Candidates

/-!
# The placement search

Depth-first placement of the buffers of a tile in a fixed order. A placement that leaves a later
buffer nowhere to go is undone in place, and what was searched in full is remembered.

* `TileState`, `Spent`: what placements write, and what the search keeps besides;
* `Tile.attempt`, `Tile.run`: one candidate, and `PlacementSearch::run` with its memo or without;
* **`run_undoes`**: a search that fails leaves the tile as it was.
-/

namespace MlirAie.Ranked

open MlirAie.Lib

structure Attrs where
  address : Option ℕ := none
  memBank : Option ℤ := none
deriving DecidableEq, Repr

structure TileState where
  occupancy : MemoryOccupancy
  attrs : ℕ → Attrs
  placed : List ℕ := []

/-- The members that a search keeps when it undoes a placement. -/
structure Spent where
  budget : ℤ
  exhausted : Bool := false
  backtracks : ℕ := 0
  deepestIndex : ℕ := 0
  deepest : Option ℕ := none
  deepestLayout : List (ℕ × ℕ × ℤ) := []
  failedStates : List (List ℕ) := []

/-- `recordDeepest`, where the search got further than before. -/
def Spent.recordDeepest (k : Spent) (index b : ℕ) (s : TileState) : Spent :=
  if k.deepest = none ∨ k.deepestIndex < index then
    { k with
      deepestIndex := index
      deepest := some b
      deepestLayout := s.placed.map fun done =>
        (done, (s.attrs done).address.getD 0, (s.attrs done).memBank.getD 0) }
  else k

def Spent.spend (k : Spent) : Spent := { k with budget := k.budget - 1 }

/-- A subproblem: the next buffer's index and the free runs left. -/
def stateKey (index : ℕ) (o : MemoryOccupancy) : List ℕ :=
  index :: (o.gapsIn 0 o.size).flatMap fun gap => [gap.start, gap.size]

/-- The `mem_bank` that stays when a placement is undone. -/
def keptOf : Option (List ℤ) → Option ℤ
  | some [bank] => some bank
  | _ => none

/-! ## What the caller leaves -/

/-- `applySignatureBankConstraints` on a buffer: the banks of its memory space against its
`mem_bank`, which a single one supplies. -/
def applySignatureBankConstraints (banks : List ℤ) (memBank : Option ℤ) :
    Except String (Option ℤ) :=
  match banks, memBank with
  | [], existing => .ok existing
  | front :: others, some existing =>
    if existing ∈ front :: others then
      if others = [] then .ok (some front) else .ok (some existing)
    else .error ("has address space for bank " ++ toString front ++
      (match others.getLast? with | some back => " or " ++ toString back | none => "") ++
      " but is pinned to bank " ++ toString existing ++ ". These constraints disagree")
  | front :: others, none => if others = [] then .ok (some front) else .ok none

/-- `recordRequiredBank` on a buffer without an address. -/
def recordRequiredBank (numBanks : ℕ) (banks : List ℤ) (memBank : Option ℤ) :
    Except String (Option (List ℤ)) :=
  if memBank.any fun bank : ℤ => bank < 0 ∨ (numBanks : ℤ) ≤ bank then
    .error "mem_bank attribute value is out of range"
  else
    let allowed := match memBank with
      | some bank => [bank]
      | none => banks
    match allowed.getLast? with
    | none => .ok none
    | some back =>
      if (numBanks : ℤ) ≤ back then .error "memory space requests a bank that does not exist"
      else .ok (some allowed)

/-- **A buffer that waits has the one bank it was requested in**, if any. -/
theorem memBank_of_recorded {numBanks : ℕ} {banks : List ℤ} {given memBank : Option ℤ}
    {required : Option (List ℤ)} (happly : applySignatureBankConstraints banks given = .ok memBank)
    (hrecord : recordRequiredBank numBanks banks memBank = .ok required) :
    memBank = keptOf required := by
  unfold recordRequiredBank at hrecord
  split_ifs at hrecord
  cases memBank with
  | some bank =>
    simp only [List.getLast?_singleton] at hrecord
    split_ifs at hrecord
    cases hrecord
    rfl
  | none =>
    simp only at hrecord
    cases banks with
    | nil =>
      cases hrecord
      rfl
    | cons front others =>
      have hmany : others ≠ [] := by
        rintro rfl
        unfold applySignatureBankConstraints at happly
        cases given with
        | none => cases happly
        | some existing =>
          simp only at happly
          split_ifs at happly
          cases happly
      obtain ⟨second, others, rfl⟩ := List.exists_cons_of_ne_nil hmany
      cases hlast : (front :: second :: others).getLast? with
      | none =>
        rw [hlast] at hrecord
        cases hrecord
        rfl
      | some back =>
        rw [hlast] at hrecord
        simp only at hrecord
        split_ifs at hrecord
        cases hrecord
        rfl

namespace Tile

variable (T : Tile)

def keptBank (b : ℕ) : Option ℤ := keptOf (T.requiredBanks b)

def placeBuffer (b startAddr : ℕ) (bank : ℤ) (s : TileState) : TileState where
  occupancy := s.occupancy.markOccupied startAddr (startAddr + T.size b)
  attrs := Function.update s.attrs b ⟨some startAddr, some bank⟩
  placed := s.placed ++ [b]

def undoPlacement (b startAddr : ℕ) (s : TileState) : TileState where
  occupancy := s.occupancy.markFree startAddr (startAddr + T.size b)
  attrs := Function.update s.attrs b ⟨none, T.keptBank b⟩
  placed := s.placed.dropLast

/-- A pinned buffer leaves the cursor alone. -/
def nextBank (b : ℕ) (startBankIndex : ℤ) (candidate : Placement) : ℤ :=
  if (T.requiredBanks b).isSome then startBankIndex else (candidate.bank + 1) % T.ctx.numBanks

/-- One candidate. Without a budget it changes nothing more the second time, so that the loop's
`break` is left out. -/
def attempt (deeper : ℤ → TileState → Spent → Outcome TileState Spent) (index b : ℕ)
    (startBankIndex : ℤ) (candidate : Placement) (s : TileState) (k : Spent) :
    Outcome TileState Spent :=
  if k.budget ≤ 0 then ⟨false, s, { k.recordDeepest index b s with exhausted := true }⟩
  else
    let r := deeper (T.nextBank b startBankIndex candidate)
      (T.placeBuffer b candidate.addr candidate.bank s) k.spend
    if r.found then r
    else ⟨false, T.undoPlacement b candidate.addr r.state,
      { r.spent with backtracks := r.spent.backtracks + 1 }⟩

def remember (state : List ℕ) (r : Outcome TileState Spent) : Outcome TileState Spent :=
  if r.found then r
  else if r.spent.exhausted then r
  else ⟨false, r.state, { r.spent with failedStates := state :: r.spent.failedStates }⟩

/-- `PlacementSearch::run` on the buffers left of the order; `memo` is whether it reads what it
remembers. -/
def run (memo : Bool) : List ℕ → ℕ → ℤ → ℤ → TileState → Spent → Outcome TileState Spent
  | [], _, _, _, s, k => ⟨true, s, k⟩
  | b :: order, index, startBankIndex, remaining, s, k =>
    let state := stateKey index s.occupancy
    if memo ∧ state ∈ k.failedStates then ⟨false, s, k⟩
    else
      let rest := remaining - T.size b
      let candidates :=
        T.rankedPlacements b (s.attrs b).memBank startBankIndex rest s.occupancy
      let k := if candidates = [] then k.recordDeepest index b s else k
      let deeper (nextBank : ℤ) := run memo order (index + 1) nextBank rest
      remember state (tryEach (T.attempt deeper index b startBankIndex) candidates s k)

/-! ## Buffers that wait -/

/-- A buffer of the order has no address yet, and the one bank it was requested in, if any. -/
def Queued (order : List ℕ) (s : TileState) : Prop :=
  ∀ b ∈ order, s.attrs b = ⟨none, T.keptBank b⟩

variable {T}

theorem Queued.tail {b : ℕ} {order : List ℕ} {s : TileState} (h : T.Queued (b :: order) s) :
    T.Queued order s := fun c hc => h c (List.mem_cons_of_mem b hc)

theorem Queued.place {b addr : ℕ} {bank : ℤ} {order : List ℕ} {s : TileState}
    (h : T.Queued (b :: order) s) (hb : b ∉ order) :
    T.Queued order (T.placeBuffer b addr bank s) := by
  intro c hc
  have hne : c ≠ b := by
    rintro rfl
    exact hb hc
  change Function.update s.attrs b _ c = _
  rw [Function.update_of_ne hne]
  exact h.tail c hc

/-- **A placement of free bytes undone.** -/
theorem undo_place {b addr : ℕ} {bank : ℤ} {s : TileState}
    (hfree : Free s.occupancy addr (T.size b)) (hattrs : s.attrs b = ⟨none, T.keptBank b⟩) :
    T.undoPlacement b addr (T.placeBuffer b addr bank s) = s := by
  obtain ⟨o, attrs, placed⟩ := s
  unfold undoPlacement placeBuffer
  congr 1
  · exact o.markFree_markOccupied fun i hlo hhi _ => (hfree i hlo hhi).2
  · funext c
    by_cases hc : c = b
    · subst hc
      rw [Function.update_self]
      exact hattrs.symm
    · rw [Function.update_of_ne hc]
      exact Function.update_of_ne hc _ _
  · exact List.dropLast_concat

/-! ## Transparency -/

@[simp] theorem remember_found (state : List ℕ) (r : Outcome TileState Spent) :
    (remember state r).found = r.found := by
  unfold remember
  cases hr : r.found with
  | true => simp [hr]
  | false =>
    simp only [Bool.false_eq_true, ↓reduceIte]
    split_ifs
    · exact hr
    · rfl

@[simp] theorem remember_state (state : List ℕ) (r : Outcome TileState Spent) :
    (remember state r).state = r.state := by
  unfold remember
  split_ifs <;> rfl

@[simp] theorem remember_exhausted (state : List ℕ) (r : Outcome TileState Spent) :
    (remember state r).spent.exhausted = r.spent.exhausted := by
  unfold remember
  split_ifs <;> rfl

@[simp] theorem remember_budget (state : List ℕ) (r : Outcome TileState Spent) :
    (remember state r).spent.budget = r.spent.budget := by
  unfold remember
  split_ifs <;> rfl

theorem undoes_attempt {deeper : ℤ → TileState → Spent → Outcome TileState Spent} {index b : ℕ}
    {order : List ℕ} {startBankIndex : ℤ} {p : Placement} {s : TileState}
    (hfree : Free s.occupancy p.addr (T.size b)) (hq : T.Queued (b :: order) s) (hb : b ∉ order)
    (hdeeper : ∀ nextBank s, T.Queued order s → Undoes (deeper nextBank) s) :
    Undoes (T.attempt deeper index b startBankIndex p) s := by
  intro k hfail
  unfold attempt at hfail ⊢
  by_cases hbudget : k.budget ≤ 0
  · simp only [hbudget, ↓reduceIte]
  · simp only [hbudget, ↓reduceIte] at hfail ⊢
    by_cases hfound : (deeper (T.nextBank b startBankIndex p) (T.placeBuffer b p.addr p.bank s)
        k.spend).found = true
    · rw [if_pos hfound, hfound] at hfail
      cases hfail
    · rw [if_neg hfound]
      simp only
      rw [hdeeper _ _ (hq.place hb) _ (Bool.not_eq_true _ ▸ hfound)]
      exact undo_place hfree (hq b List.mem_cons_self)

/-- The loop of a call whose deeper calls undo what they did. -/
theorem undoes_loop {deeper : ℤ → TileState → Spent → Outcome TileState Spent}
    (index b : ℕ) {order : List ℕ} (startBankIndex rest : ℤ) {s : TileState}
    (hq : T.Queued (b :: order) s) (hb : b ∉ order)
    (hdeeper : ∀ nextBank s, T.Queued order s → Undoes (deeper nextBank) s) :
    ∀ p ∈ T.rankedPlacements b (s.attrs b).memBank startBankIndex rest s.occupancy,
      Undoes (T.attempt deeper index b startBankIndex p) s :=
  fun _ hp => undoes_attempt (free_of_mem_ranked hp) hq hb hdeeper

/-- **A search that fails leaves the tile as it was**: every bit and every attribute. -/
theorem run_undoes (memo : Bool) {order : List ℕ} (hnodup : order.Nodup) :
    ∀ (index : ℕ) (startBankIndex remaining : ℤ) (s : TileState), T.Queued order s →
      Undoes (T.run memo order index startBankIndex remaining) s := by
  induction order with
  | nil =>
    intro index startBankIndex remaining s _ k hfail
    cases hfail
  | cons b order ih =>
    intro index startBankIndex remaining s hq k hfail
    obtain ⟨hb, hnodup⟩ := List.nodup_cons.1 hnodup
    have hloop := Undoes.tryEach (undoes_loop index b startBankIndex (remaining - T.size b) hq hb
      fun nextBank s hs => ih hnodup (index + 1) nextBank (remaining - T.size b) s hs)
    unfold run at hfail ⊢
    simp only at hfail ⊢
    by_cases hmemo : memo = true ∧ stateKey index s.occupancy ∈ k.failedStates
    · rw [if_pos hmemo]
    · rw [if_neg hmemo] at hfail ⊢
      rw [remember_found] at hfail
      rw [remember_state]
      exact hloop _ hfail

end Tile

end MlirAie.Ranked
