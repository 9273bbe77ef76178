import MlirAie.Ranked.Occupancy

/-!
# Candidate placements

Every address that a buffer could take on a tile, best first. A buffer with requested banks is tried
at the two ends of each hole of them; any other at the probes of each bank and of the tile, and
after these at the ends of every hole.

* `BankAwareContext`, `BufferInfo`, `Placement`: what is read of the tile and of a buffer, and a
  candidate with its rank;
* `Tile.rankedPlacements`: the candidates, in order;
* **`free_of_mem_ranked`**: a candidate covers free bytes; **`spots_ranked`**: which addresses and
  banks there are depends on the occupancy alone.
-/

namespace MlirAie.Ranked

/-- What the search reads of the tile's context. The banks are those of `fillBankLimits`. -/
structure BankAwareContext where
  numBanks : ℕ
  bankSize : ℕ
  maxDataMemorySize : ℕ
  hasCore : Bool
  initGuardBytes : ℕ := 0

namespace BankAwareContext

variable (ctx : BankAwareContext)

/-- `bankLimits[bank]`. -/
def bankLimit (bank : ℤ) : MemoryRun := ⟨ctx.bankSize * bank.toNat, ctx.bankSize⟩

/-- Index of the bank owning `addr`, or -1. -/
def getBankContaining (addr : ℕ) : ℤ :=
  match (List.range ctx.numBanks).find? fun i : ℕ => (ctx.bankLimit i).contains addr with
  | some i => i
  | none => -1

end BankAwareContext

/-- What the search reads of a buffer and does not write. The alignment is at a `mem_bank`
attribute: a bank reservation has that of its bank. -/
structure BufferInfo where
  size : ℕ
  alignBytes : Option ℤ → ℕ
  alignBytes_pos : ∀ memBank, 0 < alignBytes memBank
  initialValue : Bool := false

abbrev RequiredBanks := ℕ → Option (List ℤ)

structure Tile where
  ctx : BankAwareContext
  buffer : ℕ → BufferInfo
  requiredBanks : RequiredBanks

/-- A candidate. -/
structure Placement where
  addr : ℕ
  bank : ℤ
  banksTouched : ℤ
  negLargestRunLeft : ℤ
  rrDistance : ℤ
  slack : ℤ
deriving DecidableEq, Repr

namespace Placement

def rank (p : Placement) : List ℤ :=
  [p.banksTouched, p.negLargestRunLeft, p.rrDistance, p.slack, p.addr]

/-- What is placed. -/
def spot (p : Placement) : ℕ × ℤ := (p.addr, p.bank)

end Placement

def kFallbackRank : ℤ := 2 ^ 63 - 1

/-- `llvm::stable_sort` by rank. -/
def sortByRank (out : List Placement) : List Placement :=
  out.insertionSort fun a b => ¬ b.rank < a.rank

/-- `llvm::stable_sort` by address. -/
def sortByAddr (out : List Placement) : List Placement :=
  out.insertionSort fun a b => a.addr ≤ b.addr

/-- `llvm::unique` by address. -/
def uniqueAddr (out : List Placement) : List Placement := out.destutter fun a b => a.addr ≠ b.addr

/-- Both flush ends of a hole, where the buffer fits in it. -/
def flushEnds (gap : MemoryRun) (size alignBytes : ℕ) : List ℕ :=
  let low := alignTo gap.start alignBytes
  if low + size > gap.stop then [] else [low, max (alignDown (gap.stop - size) alignBytes) low]

namespace BankAwareContext

variable (ctx : BankAwareContext)

/-- The ranges of the requested banks; adjacent ones can hold one spanning buffer. -/
def requiredRanges (banks : List ℤ) : List MemoryRun :=
  banks.map ctx.bankLimit ++
    match banks with
    | [front, back] =>
      if back = front + 1 then
        [⟨(ctx.bankLimit front).start, (ctx.bankLimit front).size + (ctx.bankLimit back).size⟩]
      else []
    | _ => []

def pinnedPlacement (occupancy : MemoryOccupancy) (banks : List ℤ) (size addr : ℕ) :
    Option Placement :=
  let bank := ctx.getBankContaining addr
  if bank ∈ banks then
    let trial := occupancy.markOccupied addr (addr + size)
    let lastBank := if size = 0 then bank else ctx.getBankContaining (addr + size - 1)
    some ⟨addr, bank, lastBank - bank + 1, -(trial.largestGap 0 trial.size), 0, 0⟩
  else none

/-- A requested bank set is a hard constraint. -/
def pinnedPlacements (occupancy : MemoryOccupancy) (banks : List ℤ) (size alignBytes : ℕ) :
    List Placement :=
  let out := (ctx.requiredRanges banks).flatMap fun limits =>
    (occupancy.gapsIn limits.start limits.stop).flatMap fun gap =>
      (flushEnds gap size alignBytes).filterMap (ctx.pinnedPlacement occupancy banks size)
  -- a zero-sized buffer needs no free byte, so every bank holds it
  if out.isEmpty ∧ size = 0 then
    [⟨(ctx.bankLimit (banks.headD 0)).start, banks.headD 0, 1, 0, 0, 0⟩]
  else out

/-- `bankLimits.back().end()`. -/
def bankedEnd : ℕ := (ctx.bankLimit (ctx.numBanks - 1)).stop

/-- A probe's candidate with its score. -/
def consider (occupancy : MemoryOccupancy) (size : ℕ) (startBankIndex contiguityCap : ℤ)
    (addr : ℕ) : Option Placement :=
  let bank := ctx.getBankContaining addr
  if bank < 0 then none
  else
    let bankSize := ctx.bankedEnd / ctx.numBanks
    let touched : ℤ :=
      if size = 0 then 1 else ((addr + size - 1) / bankSize : ℕ) - (addr / bankSize : ℕ) + 1
    let topGaps := occupancy.topTwoGaps 0 ctx.maxDataMemorySize
    let gap := occupancy.gapAt addr
    let elsewhere : ℤ := if gap.size = topGaps.1 then topGaps.2 else topGaps.1
    let leftPiece : ℤ := addr - gap.start
    let rightPiece : ℤ := gap.stop - (addr + size)
    let runLeft := min (max (max elsewhere leftPiece) rightPiece) contiguityCap
    some ⟨addr, bank, touched, if ctx.hasCore then -runLeft else 0,
      (bank - startBankIndex + ctx.numBanks) % ctx.numBanks, occupancy.slackAt addr size⟩

/-- The tightest fits: of each bank, of the banked region, and there at bank boundaries. -/
def probes (occupancy : MemoryOccupancy) (size alignBytes : ℕ) : List (Option ℕ) :=
  let bankSize := ctx.bankedEnd / ctx.numBanks
  ((List.range ctx.numBanks).map fun i =>
    occupancy.findGap (ctx.bankLimit i).start (ctx.bankLimit i).stop size alignBytes) ++
  [occupancy.findGap 0 ctx.bankedEnd size alignBytes] ++
  if bankSize % alignBytes = 0 then [occupancy.findGap 0 ctx.bankedEnd size bankSize] else []

def freePlacements (occupancy : MemoryOccupancy) (size alignBytes : ℕ)
    (startBankIndex contiguityCap : ℤ) : List Placement :=
  let out := (ctx.probes occupancy size alignBytes).filterMap fun addr =>
    addr.bind (ctx.consider occupancy size startBankIndex contiguityCap)
  -- a zero-sized buffer needs no free byte, so a full tile still holds it
  if out.isEmpty ∧ size = 0 then [⟨0, 0, 1, 0, 0, 0⟩] else out

def fallbackPlacement (addr : ℕ) : Option Placement :=
  let bank := ctx.getBankContaining addr
  if 0 ≤ bank then some ⟨addr, bank, kFallbackRank, 0, 0, 0⟩ else none

/-- Both ends of every hole; they rank last. -/
def fallbackPlacements (occupancy : MemoryOccupancy) (size alignBytes : ℕ) : List Placement :=
  (occupancy.gapsIn 0 ctx.maxDataMemorySize).flatMap fun gap =>
    (flushEnds gap size alignBytes).filterMap ctx.fallbackPlacement

end BankAwareContext

namespace Tile

variable (T : Tile)

def size (b : ℕ) : ℕ := (T.buffer b).size

def guarded (b : ℕ) (tileOccupancy : MemoryOccupancy) : MemoryOccupancy :=
  if 0 < T.ctx.initGuardBytes ∧ (T.buffer b).initialValue then
    tileOccupancy.markOccupied 0 (min T.ctx.initGuardBytes tileOccupancy.size)
  else tileOccupancy

def scored (b : ℕ) (memBank : Option ℤ) (startBankIndex contiguityCap : ℤ)
    (tileOccupancy : MemoryOccupancy) : List Placement :=
  let occupancy := T.guarded b tileOccupancy
  let alignBytes := (T.buffer b).alignBytes memBank
  match T.requiredBanks b with
  | some banks => T.ctx.pinnedPlacements occupancy banks (T.size b) alignBytes
  | none =>
    T.ctx.freePlacements occupancy (T.size b) alignBytes startBankIndex contiguityCap

/-- The candidates that have none. -/
def fallbacks (b : ℕ) (memBank : Option ℤ) (tileOccupancy : MemoryOccupancy) : List Placement :=
  if 0 < T.size b ∧ T.requiredBanks b = none then
    T.ctx.fallbackPlacements (T.guarded b tileOccupancy) (T.size b)
      ((T.buffer b).alignBytes memBank)
  else []

/-- **Every address that the buffer could take**, best first, each once. -/
def rankedPlacements (b : ℕ) (memBank : Option ℤ) (startBankIndex contiguityCap : ℤ)
    (tileOccupancy : MemoryOccupancy) : List Placement :=
  let out := sortByRank (T.scored b memBank startBankIndex contiguityCap tileOccupancy) ++
    T.fallbacks b memBank tileOccupancy
  sortByRank (uniqueAddr (sortByAddr out))

end Tile

/-! ## The candidates as a set -/

theorem exists_mem_destutter' {a p : Placement} {l : List Placement} (h : p ∈ a :: l) :
    ∃ q ∈ l.destutter' (fun a b => a.addr ≠ b.addr) a, q.addr = p.addr := by
  induction l generalizing a p with
  | nil => exact ⟨a, List.mem_singleton_self a, by rw [List.mem_singleton.1 h]⟩
  | cons b l ih =>
    by_cases hne : a.addr ≠ b.addr
    · rw [List.destutter'_cons_pos (R := fun a b : Placement => a.addr ≠ b.addr) _ hne]
      rcases List.mem_cons.1 h with rfl | h
      · exact ⟨p, List.mem_cons_self, rfl⟩
      · obtain ⟨q, hq, haddr⟩ := ih h
        exact ⟨q, List.mem_cons_of_mem _ hq, haddr⟩
    · rw [List.destutter'_cons_neg (R := fun a b : Placement => a.addr ≠ b.addr) _ hne]
      have hsame : a.addr = b.addr := not_not.1 hne
      rcases List.mem_cons.1 h with rfl | h
      · exact ih List.mem_cons_self
      · rcases List.mem_cons.1 h with rfl | h
        · obtain ⟨q, hq, haddr⟩ := ih (p := a) (a := a) List.mem_cons_self
          exact ⟨q, hq, haddr.trans hsame⟩
        · exact ih (List.mem_cons_of_mem _ h)

theorem exists_mem_uniqueAddr {p : Placement} {l : List Placement} (h : p ∈ l) :
    ∃ q ∈ uniqueAddr l, q.addr = p.addr := by
  cases l with
  | nil => exact absurd h List.not_mem_nil
  | cons a l => exact exists_mem_destutter' h

theorem mem_of_mem_uniqueAddr {p : Placement} {l : List Placement} (h : p ∈ uniqueAddr l) : p ∈ l :=
  (List.destutter_sublist _ l).subset h

theorem mem_sortByRank {p : Placement} {l : List Placement} : p ∈ sortByRank l ↔ p ∈ l :=
  List.mem_insertionSort _

theorem mem_sortByAddr {p : Placement} {l : List Placement} : p ∈ sortByAddr l ↔ p ∈ l :=
  List.mem_insertionSort _

namespace Tile

variable {T : Tile} {b : ℕ} {memBank : Option ℤ} {start cap : ℤ} {o : MemoryOccupancy}

/-- The candidates before they are ordered. -/
def raw (T : Tile) (b : ℕ) (memBank : Option ℤ) (start cap : ℤ) (o : MemoryOccupancy) :
    List Placement := T.scored b memBank start cap o ++ T.fallbacks b memBank o

theorem mem_raw_of_mem_ranked {p : Placement} (h : p ∈ T.rankedPlacements b memBank start cap o) :
    p ∈ T.raw b memBank start cap o := by
  unfold rankedPlacements at h
  have hout := mem_sortByAddr.1 (mem_of_mem_uniqueAddr (mem_sortByRank.1 h))
  rw [List.mem_append, mem_sortByRank] at hout
  exact List.mem_append.2 hout

theorem exists_mem_ranked {p : Placement} (h : p ∈ T.raw b memBank start cap o) :
    ∃ q ∈ T.rankedPlacements b memBank start cap o, q.addr = p.addr := by
  unfold rankedPlacements
  have hout : p ∈ sortByAddr (sortByRank (T.scored b memBank start cap o) ++
      T.fallbacks b memBank o) := by
    rw [mem_sortByAddr, List.mem_append, mem_sortByRank]
    exact List.mem_append.1 h
  obtain ⟨q, hq, haddr⟩ := exists_mem_uniqueAddr hout
  exact ⟨q, mem_sortByRank.2 hq, haddr⟩

/-! ## Candidates cover free bytes -/

end Tile

theorem le_alignTo {align : ℕ} (h : 0 < align) (value : ℕ) : value ≤ alignTo value align := by
  have hmod := Nat.mod_lt (value + align - 1) h
  have hdiv := Nat.div_add_mod (value + align - 1) align
  unfold alignTo
  rw [mul_comm] at hdiv
  omega

theorem mem_flushEnds {gap : MemoryRun} {size align addr : ℕ} (halign : 0 < align)
    (h : addr ∈ flushEnds gap size align) : gap.start ≤ addr ∧ addr + size ≤ gap.stop := by
  unfold flushEnds at h
  have hlow := le_alignTo halign gap.start
  have hdown : alignDown (gap.stop - size) align ≤ gap.stop - size := Nat.div_mul_le_self _ _
  simp only at h
  split_ifs at h with hfit
  · exact absurd h List.not_mem_nil
  · simp only [List.mem_cons, List.not_mem_nil, or_false] at h
    rcases h with rfl | rfl <;> omega

def Free (o : MemoryOccupancy) (addr size : ℕ) : Prop :=
  ∀ i, addr ≤ i → i < addr + size → i < o.size ∧ o.taken i = false

theorem free_of_gap {o : MemoryOccupancy} {lo hi addr size : ℕ} {gap : MemoryRun}
    (hgap : gap ∈ o.gapsIn lo hi) (hstart : gap.start ≤ addr) (hstop : addr + size ≤ gap.stop) :
    Free o addr size := by
  obtain ⟨-, hin, hfree⟩ := o.free_of_mem_gapsIn hgap
  intro i hlo hhi
  exact ⟨by omega, hfree i (by omega) (by omega)⟩

theorem free_of_tighter {o : MemoryOccupancy} {lo hi size align : ℕ} {gap : MemoryRun}
    {best : Option (ℕ × ℕ)} {found : ℕ × ℕ} (halign : 0 < align) (hgap : gap ∈ o.gapsIn lo hi)
    (hbest : ∀ b, best = some b → Free o b.1 size)
    (h : MemoryOccupancy.tighter size align best gap = some found) : Free o found.1 size := by
  have hfits : alignTo gap.start align + size ≤ gap.stop →
      Free o (alignTo gap.start align) size := fun hfit =>
    free_of_gap hgap (le_alignTo halign _) hfit
  unfold MemoryOccupancy.tighter at h
  simp only at h
  split_ifs at h with hfit
  · cases best with
    | none =>
      cases h
      exact hfits hfit
    | some old =>
      simp only at h
      split_ifs at h with hslack
      · cases h
        exact hfits hfit
      · exact hbest found h
  · exact hbest found h

theorem free_of_findGap {o : MemoryOccupancy} {lo hi size align addr : ℕ} (halign : 0 < align)
    (h : o.findGap lo hi size align = some addr) : Free o addr size := by
  unfold MemoryOccupancy.findGap at h
  rw [Option.map_eq_some_iff] at h
  obtain ⟨found, hfound, rfl⟩ := h
  have hstep : ∀ gaps : List MemoryRun, (∀ gap ∈ gaps, gap ∈ o.gapsIn lo hi) →
      ∀ best : Option (ℕ × ℕ), (∀ b, best = some b → Free o b.1 size) →
      ∀ b, gaps.foldl (MemoryOccupancy.tighter size align) best = some b → Free o b.1 size := by
    intro gaps
    induction gaps with
    | nil => exact fun _ best hbest => hbest
    | cons gap gaps ih =>
      intro hmem best hbest
      rw [List.foldl_cons]
      exact ih (fun g hg => hmem g (List.mem_cons_of_mem _ hg)) _ fun b hb =>
        free_of_tighter halign (hmem gap List.mem_cons_self) hbest hb
  exact hstep _ (fun _ h => h) none (fun _ h => by cases h) found hfound

namespace BankAwareContext

variable {ctx : BankAwareContext} {o : MemoryOccupancy} {size align : ℕ} {p : Placement}

theorem spot_of_pinned {banks : List ℤ} {addr : ℕ}
    (h : ctx.pinnedPlacement o banks size addr = some p) :
    p.addr = addr ∧ p.bank = ctx.getBankContaining addr := by
  unfold pinnedPlacement at h
  simp only at h
  by_cases hbank : ctx.getBankContaining addr ∈ banks
  · rw [if_pos hbank] at h
    cases h
    exact ⟨rfl, rfl⟩
  · rw [if_neg hbank] at h
    cases h

theorem spot_of_consider {start cap : ℤ} {addr : ℕ}
    (h : ctx.consider o size start cap addr = some p) :
    p.addr = addr ∧ p.bank = ctx.getBankContaining addr ∧ 0 ≤ ctx.getBankContaining addr := by
  unfold consider at h
  simp only at h
  by_cases hbank : ctx.getBankContaining addr < 0
  · rw [if_pos hbank] at h
    cases h
  · rw [if_neg hbank] at h
    cases h
    exact ⟨rfl, rfl, not_lt.1 hbank⟩

theorem spot_of_fallback {addr : ℕ} (h : ctx.fallbackPlacement addr = some p) :
    p.addr = addr ∧ p.bank = ctx.getBankContaining addr := by
  unfold fallbackPlacement at h
  simp only at h
  split_ifs at h
  cases h
  exact ⟨rfl, rfl⟩

theorem bankSize_pos {addr : ℕ} (h : 0 ≤ ctx.getBankContaining addr) :
    0 < ctx.numBanks ∧ 0 < ctx.bankSize := by
  unfold getBankContaining at h
  cases hfind : (List.range ctx.numBanks).find? fun i : ℕ => (ctx.bankLimit i).contains addr with
  | none =>
    rw [hfind] at h
    exact absurd h (by decide)
  | some i =>
    have hmem := List.mem_range.1 (List.mem_of_find?_eq_some hfind)
    have hin := List.find?_some hfind
    change (ctx.bankLimit i).contains addr = true at hin
    rw [MemoryRun.contains, Bool.and_eq_true] at hin
    have hlo : ctx.bankSize * (i : ℤ).toNat ≤ addr := of_decide_eq_true hin.1
    have hhi : addr < ctx.bankSize * (i : ℤ).toNat + ctx.bankSize := of_decide_eq_true hin.2
    exact ⟨by omega, by omega⟩

theorem bankedEnd_div (h : 0 < ctx.numBanks) : ctx.bankedEnd / ctx.numBanks = ctx.bankSize := by
  have hlast : ((ctx.numBanks : ℤ) - 1).toNat + 1 = ctx.numBanks := by omega
  have hend : ctx.bankedEnd = ctx.bankSize * ctx.numBanks := by
    simp only [bankedEnd, bankLimit, MemoryRun.stop]
    rw [← Nat.mul_succ, Nat.succ_eq_add_one, hlast]
  rw [hend, Nat.mul_div_cancel _ h]

theorem mem_pinnedPlacements {banks : List ℤ}
    (h : p ∈ ctx.pinnedPlacements o banks size align) (halign : 0 < align) :
    (p.bank = ctx.getBankContaining p.addr ∧ Free o p.addr size) ∨
      size = 0 ∧ ctx.pinnedPlacements o banks size align = [p] := by
  unfold pinnedPlacements at h ⊢
  simp only at h ⊢
  split_ifs at h ⊢ with hempty
  · exact Or.inr ⟨hempty.2, by rw [List.mem_singleton.1 h]⟩
  · refine Or.inl ?_
    simp only [List.mem_flatMap, List.mem_filterMap] at h
    obtain ⟨limits, -, gap, hgap, addr, haddr, hp⟩ := h
    obtain ⟨rfl, hbank⟩ := spot_of_pinned hp
    obtain ⟨hstart, hstop⟩ := mem_flushEnds halign haddr
    exact ⟨hbank, free_of_gap hgap hstart hstop⟩

theorem mem_freePlacements {start cap : ℤ}
    (h : p ∈ ctx.freePlacements o size align start cap) (halign : 0 < align) :
    (p.bank = ctx.getBankContaining p.addr ∧ Free o p.addr size) ∨
      size = 0 ∧ ctx.freePlacements o size align start cap = [p] := by
  unfold freePlacements at h ⊢
  simp only at h ⊢
  split_ifs at h ⊢ with hempty
  · exact Or.inr ⟨hempty.2, by rw [List.mem_singleton.1 h]⟩
  · refine Or.inl ?_
    rw [List.mem_filterMap] at h
    obtain ⟨probe, hprobe, hp⟩ := h
    rw [Option.bind_eq_some_iff] at hp
    obtain ⟨addr, rfl, hp⟩ := hp
    obtain ⟨rfl, hbank, hpos⟩ := spot_of_consider hp
    refine ⟨hbank, ?_⟩
    obtain ⟨hnum, hsize⟩ := bankSize_pos hpos
    unfold probes at hprobe
    rw [bankedEnd_div hnum] at hprobe
    simp only [List.mem_append, List.mem_map, List.mem_singleton] at hprobe
    rcases hprobe with (⟨i, -, hfind⟩ | hfind) | hfind
    · exact free_of_findGap halign hfind
    · exact free_of_findGap halign hfind.symm
    · split_ifs at hfind
      · exact free_of_findGap hsize (List.mem_singleton.1 hfind).symm
      · exact absurd hfind List.not_mem_nil

theorem mem_fallbackPlacements (h : p ∈ ctx.fallbackPlacements o size align) (halign : 0 < align) :
    p.bank = ctx.getBankContaining p.addr ∧ Free o p.addr size := by
  unfold fallbackPlacements at h
  simp only [List.mem_flatMap, List.mem_filterMap] at h
  obtain ⟨gap, hgap, addr, haddr, hp⟩ := h
  obtain ⟨rfl, hbank⟩ := spot_of_fallback hp
  obtain ⟨hstart, hstop⟩ := mem_flushEnds halign haddr
  exact ⟨hbank, free_of_gap hgap hstart hstop⟩

end BankAwareContext

namespace Tile

variable {T : Tile} {b : ℕ} {memBank : Option ℤ} {start cap : ℤ} {o : MemoryOccupancy}
  {p : Placement}

theorem free_of_guarded {addr size : ℕ} (h : Free (T.guarded b o) addr size) :
    Free o addr size := by
  unfold guarded at h
  split_ifs at h
  · intro i hlo hhi
    obtain ⟨hin, hfree⟩ := h i hlo hhi
    rw [MemoryOccupancy.size_markOccupied] at hin
    rw [MemoryOccupancy.taken_markOccupied hin, Bool.or_eq_false_iff] at hfree
    exact ⟨hin, hfree.1⟩
  · exact h

/-- A candidate is in the bank of its address; one that is not is the only one, of no bytes. -/
theorem mem_raw (h : p ∈ T.raw b memBank start cap o) :
    (p.bank = T.ctx.getBankContaining p.addr ∧ Free o p.addr (T.size b)) ∨
      T.size b = 0 ∧ T.raw b memBank start cap o = [p] := by
  have halign := (T.buffer b).alignBytes_pos memBank
  have hnone : T.size b = 0 → T.fallbacks b memBank o = [] := fun hzero =>
    if_neg fun hpos => by omega
  unfold raw at h ⊢
  rcases List.mem_append.1 h with hmem | hmem
  · unfold scored at hmem ⊢
    cases hreq : T.requiredBanks b with
    | some banks =>
      simp only [hreq] at hmem ⊢
      rcases T.ctx.mem_pinnedPlacements hmem halign with ⟨hbank, hfree⟩ | ⟨hzero, hone⟩
      · exact Or.inl ⟨hbank, free_of_guarded hfree⟩
      · exact Or.inr ⟨hzero, by rw [hone, hnone hzero, List.append_nil]⟩
    | none =>
      simp only [hreq] at hmem ⊢
      rcases T.ctx.mem_freePlacements hmem halign with ⟨hbank, hfree⟩ | ⟨hzero, hone⟩
      · exact Or.inl ⟨hbank, free_of_guarded hfree⟩
      · exact Or.inr ⟨hzero, by rw [hone, hnone hzero, List.append_nil]⟩
  · unfold fallbacks at hmem
    split_ifs at hmem
    · obtain ⟨hbank, hfree⟩ := T.ctx.mem_fallbackPlacements hmem halign
      exact Or.inl ⟨hbank, free_of_guarded hfree⟩
    · exact absurd hmem List.not_mem_nil

/-- **A candidate covers free bytes.** -/
theorem free_of_mem_ranked (h : p ∈ T.rankedPlacements b memBank start cap o) :
    Free o p.addr (T.size b) := by
  rcases mem_raw (mem_raw_of_mem_ranked h) with ⟨-, hfree⟩ | ⟨hzero, -⟩
  · exact hfree
  · intro i hlo hhi
    omega

theorem bank_eq {q : Placement} (hp : p ∈ T.raw b memBank start cap o)
    (hq : q ∈ T.raw b memBank start cap o) (h : p.addr = q.addr) : p.bank = q.bank := by
  rcases mem_raw hp with ⟨hbank, -⟩ | ⟨-, hone⟩
  · rcases mem_raw hq with ⟨hbank', -⟩ | ⟨-, hone'⟩
    · rw [hbank, hbank', h]
    · rw [hone'] at hp
      rw [List.mem_singleton.1 hp]
  · rw [hone] at hq
    rw [List.mem_singleton.1 hq]

theorem mem_spots_ranked {at' : ℕ × ℤ} :
    at' ∈ (T.rankedPlacements b memBank start cap o).map Placement.spot ↔
      at' ∈ (T.raw b memBank start cap o).map Placement.spot := by
  simp only [List.mem_map]
  constructor
  · rintro ⟨p, hp, rfl⟩
    exact ⟨p, mem_raw_of_mem_ranked hp, rfl⟩
  · rintro ⟨p, hp, rfl⟩
    obtain ⟨q, hq, haddr⟩ := exists_mem_ranked hp
    exact ⟨q, hq, Prod.ext haddr (bank_eq (mem_raw_of_mem_ranked hq) hp haddr)⟩

/-- The cursor and the cap are read by the score only. -/
theorem spots_free {ctx : BankAwareContext} {size align : ℕ} (start cap start' cap' : ℤ) :
    (ctx.freePlacements o size align start cap).map Placement.spot =
      (ctx.freePlacements o size align start' cap').map Placement.spot := by
  have hone : ∀ addr, (ctx.consider o size start cap addr).map Placement.spot =
      (ctx.consider o size start' cap' addr).map Placement.spot := by
    intro addr
    unfold BankAwareContext.consider
    simp only
    by_cases hbank : ctx.getBankContaining addr < 0
    · rw [if_pos hbank, if_pos hbank]
    · rw [if_neg hbank, if_neg hbank]
      rfl
  have hout : ((ctx.probes o size align).filterMap fun addr =>
        addr.bind (ctx.consider o size start cap)).map Placement.spot =
      ((ctx.probes o size align).filterMap fun addr =>
        addr.bind (ctx.consider o size start' cap')).map Placement.spot := by
    rw [List.map_filterMap, List.map_filterMap]
    congr 1
    funext addr
    cases addr with
    | none => rfl
    | some addr => exact hone addr
  unfold BankAwareContext.freePlacements
  simp only
  have hempty := congrArg List.isEmpty hout
  rw [List.isEmpty_map, List.isEmpty_map] at hempty
  rw [hempty]
  split_ifs
  · rfl
  · exact hout

theorem spots_raw (start cap start' cap' : ℤ) :
    (T.raw b memBank start cap o).map Placement.spot =
      (T.raw b memBank start' cap' o).map Placement.spot := by
  unfold raw scored
  rw [List.map_append, List.map_append]
  cases hreq : T.requiredBanks b with
  | some banks => rfl
  | none =>
    simp only
    rw [spots_free start cap start' cap']

/-- **Which addresses and banks there are depends on the occupancy alone**: the cursor and the cap
only order them. -/
theorem spots_ranked (start cap start' cap' : ℤ) {at' : ℕ × ℤ} :
    at' ∈ (T.rankedPlacements b memBank start cap o).map Placement.spot ↔
      at' ∈ (T.rankedPlacements b memBank start' cap' o).map Placement.spot := by
  rw [mem_spots_ranked, mem_spots_ranked, spots_raw start cap start' cap']

theorem sum_ranked_le (cost : ℕ × ℤ → ℕ) :
    ((T.rankedPlacements b memBank start cap o).map fun p => cost p.spot).sum ≤
      ((T.raw b memBank 0 0 o).map fun p => cost p.spot).sum := by
  have hsort : ∀ l : List Placement,
      ((sortByRank l).map fun p => cost p.spot).sum = (l.map fun p => cost p.spot).sum :=
    fun l => ((List.perm_insertionSort _ l).map _).sum_eq
  have haddr : ∀ l : List Placement,
      ((sortByAddr l).map fun p => cost p.spot).sum = (l.map fun p => cost p.spot).sum :=
    fun l => ((List.perm_insertionSort _ l).map _).sum_eq
  have hunique : ∀ l : List Placement,
      ((uniqueAddr l).map fun p => cost p.spot).sum ≤ (l.map fun p => cost p.spot).sum :=
    fun l => ((List.destutter_sublist _ l).map _).sum_le_sum fun _ _ => Nat.zero_le _
  have hspots : (T.raw b memBank start cap o).map Placement.spot =
      (T.raw b memBank 0 0 o).map Placement.spot := spots_raw start cap 0 0
  have hraw := congrArg (fun spots => (spots.map cost).sum) hspots
  simp only [List.map_map, Function.comp_def] at hraw
  unfold rankedPlacements
  rw [hsort, ← hraw]
  refine (hunique _).trans ?_
  rw [haddr, List.map_append, List.sum_append, hsort, ← List.sum_append, ← List.map_append]
  exact le_rfl

end Tile

end MlirAie.Ranked
