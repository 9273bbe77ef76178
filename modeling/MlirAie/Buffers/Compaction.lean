import MlirAie.Lib.Packing

/-!
# The compaction search

The exhaustive placement of the buffers of a tile, for when the ranked search fails. Addresses and
sizes are integers; a buffer is known by its position in the order.

* `CompactionSearch.ofOrder`: what the constructor derives from the buffers and the tile;
* `CompactionSearch.lowest`: where a buffer fits in a run;
* `CompactionSearch.place`, `CompactionSearch.run`: the search, with its budget and the failures it
  remembers.
-/

namespace MlirAie.Buffers

open MlirAie.Lib

abbrev MemoryRun := Run

/-! ## The tile -/

/-- `llvm::alignTo`. -/
def alignTo (value align : ℤ) : ℤ := (value + align - 1) / align * align

/-- The maximal free runs of a tile, lowest first, as `gapsIn` lists them. -/
structure FreeRuns where
  runs : List MemoryRun
  sorted : runs.Pairwise fun g h => g.stop ≤ h.start
  nonneg : ∀ gap ∈ runs, 0 ≤ gap.start ∧ 0 ≤ gap.size

/-- What the search reads of `BankAwareContext`. The banks are those of `fillBankLimits`. -/
structure BankAwareContext where
  numBanks : ℕ
  bankSize : ℤ
  maxDataMemorySize : ℤ
  initGuardBytes : ℤ := 0
deriving Repr

namespace BankAwareContext

variable (ctx : BankAwareContext)

def bankLimit (i : ℕ) : MemoryRun := ⟨ctx.bankSize * i, ctx.bankSize⟩

/-- `getBankContaining(addr) >= 0`. -/
def inBank (addr : ℤ) : Bool :=
  (List.range ctx.numBanks).any fun i =>
    (ctx.bankLimit i).start ≤ addr && addr < (ctx.bankLimit i).stop

end BankAwareContext

/-- A buffer to place; `requiredBanks` holds the banks it was requested in. -/
structure Buffer where
  size : ℤ
  align : ℤ
  requiredBanks : Option (List ℕ) := none
  initialValue : Bool := false
deriving Repr

/-- The ranges that a buffer may lie in. -/
def Buffer.allowed (ctx : BankAwareContext) (b : Buffer) : List MemoryRun :=
  let allowed := match b.requiredBanks with
    | none => [⟨0, ctx.maxDataMemorySize⟩]
    | some [front, back] =>
      if back = front + 1 then
        [⟨(ctx.bankLimit front).start, (ctx.bankLimit front).size + (ctx.bankLimit back).size⟩]
      else [ctx.bankLimit front, ctx.bankLimit back]
    | some banks => banks.map ctx.bankLimit
  if 0 < ctx.initGuardBytes && b.initialValue then
    allowed.filterMap fun range =>
      let start := max range.start ctx.initGuardBytes
      if start < range.stop then some ⟨start, range.stop - start⟩ else none
  else allowed

/-! ## The search -/

/-- The members that stay as the constructor set them. -/
structure CompactionSearch where
  ctx : BankAwareContext
  gaps : List MemoryRun
  sizes : List ℤ
  aligns : List ℤ
  ranges : List (List MemoryRun)
  classes : List ℕ

/-- The class of each buffer: that of the first one before it that it could swap with. -/
def classesOf {κ : Type} [DecidableEq κ] : List κ → List κ → List ℕ → List ℕ
  | [], _, classes => classes
  | k :: ks, seen, classes =>
    let cls := (classes[seen.idxOf k]?).getD seen.length
    classesOf ks (seen ++ [k]) (classes ++ [cls])

structure SearchState where
  addrs : List ℤ
  failed : List (ℤ × List ℕ) := []
  budget : ℤ
  exhausted : Bool := false

namespace CompactionSearch

def ofOrder (order : List Buffer) (ctx : BankAwareContext) (gaps : FreeRuns) :
    CompactionSearch where
  ctx := ctx
  gaps := gaps.runs
  sizes := order.map Buffer.size
  aligns := order.map Buffer.align
  ranges := order.map (Buffer.allowed ctx)
  classes := classesOf (order.map fun b => (b.size, b.align, b.allowed ctx)) [] []

variable (S : CompactionSearch)

def size (i : ℕ) : ℤ := S.sizes.getD i 0

def align (i : ℕ) : ℤ := S.aligns.getD i 1

def rangesOf (i : ℕ) : List MemoryRun := S.ranges.getD i []

def classOf (i : ℕ) : ℕ := S.classes.getD i i

/-- Free bytes from a run to the top of the tile. -/
def freeAbove (above : List MemoryRun) : ℤ := totalSize above

/-- The largest run from a run to the top of the tile. -/
def runAbove : List MemoryRun → ℤ
  | [] => 0
  | gap :: above => max (runAbove above) gap.size

/-- Where buffer `i` would go in one of its ranges, if it fits in the gap there. -/
def lowestIn (i : ℕ) (gap : MemoryRun) (start : ℤ) (range : MemoryRun) : Option ℤ :=
  let at' := alignTo (max start range.start) (S.align i)
  if at' + S.size i ≤ min gap.stop range.stop && S.ctx.inBank at' then some at' else none

/-- Lowest address at or above `start` in the gap where buffer `i` fits. -/
def lowest (i : ℕ) (gap : MemoryRun) (start : ℤ) : Option ℤ :=
  (S.rangesOf i).foldl (fun best range =>
    match S.lowestIn i gap start range, best with
    | some a, none => some a
    | some a, some b => if a < b then some a else some b
    | none, best => best) none

/-- The loop of `place` over the buffers left. `attempt` is the recursive call after a buffer is
set to an address; the result is `none` where the loop ends without a `return`. -/
def tryBuffers (attempt : ℕ → ℤ → SearchState → Bool × SearchState) (gap : MemoryRun) (start : ℤ) :
    List ℕ → List ℕ → SearchState → Option Bool × SearchState
  | [], _, s => (none, s)
  | i :: is, tried, s =>
    if S.classOf i ∈ tried then tryBuffers attempt gap start is tried s
    else
      let tried := tried ++ [S.classOf i]
      match S.lowest i gap start with
      | none => tryBuffers attempt gap start is tried s
      | some at' =>
        if s.budget ≤ 0 then
          (some false, { s with budget := s.budget - 1, exhausted := true })
        else
          let r := attempt i at'
            { s with budget := s.budget - 1, addrs := s.addrs.set i at' }
          if r.1 then (some true, r.2)
          else if r.2.exhausted then (some false, r.2)
          else tryBuffers attempt gap start is tried r.2

/-- The end of `place`: the next gap, if there is one. -/
def tryNext (attempt : MemoryRun → List MemoryRun → SearchState → Bool × SearchState) :
    List MemoryRun → SearchState → Bool × SearchState
  | [], s => (false, s)
  | next :: above, s => attempt next above s

def remember (start : ℤ) (left : List ℕ) (r : Bool × SearchState) : Bool × SearchState :=
  if r.1 then (true, r.2)
  else if r.2.exhausted then (false, r.2)
  else (false, { r.2 with failed := (start, left) :: r.2.failed })

/-- `place` in a gap with the gaps `above` it; `left` are the buffers not placed, in order. Each
call has fewer buffers left or gaps above, so `fuel` counts both. -/
def place : ℕ → MemoryRun → List MemoryRun → ℤ → List ℕ → ℤ → SearchState → Bool × SearchState
  | 0, _, _, _, left, _, s => (left.isEmpty, s)
  | fuel + 1, gap, above, start, left, bytes, s =>
    if left = [] then (true, s)
    else
      let largest := left.foldl (fun m i => max m (S.size i)) 0
      let here := gap.stop - start
      if here + freeAbove above < bytes || max here (runAbove above) < largest ||
          (start, left) ∈ s.failed then (false, s)
      else
        let attempt (i : ℕ) (at' : ℤ) (s : SearchState) :=
          place fuel gap above (at' + S.size i) (left.erase i) (bytes - S.size i) s
        let r := S.tryBuffers attempt gap start left [] s
        match r.1 with
        | some done => (done, r.2)
        | none =>
          remember start left
            (tryNext (fun next above s => place fuel next above next.start left bytes s) above r.2)

/-- Where a buffer of no bytes goes: the first gap that its banks reach. -/
def placeEmpty (i : ℕ) : List MemoryRun → Option ℤ
  | [] => none
  | gap :: gaps =>
    match S.lowest i gap gap.start with
    | some at' => some at'
    | none => placeEmpty i gaps

/-- The buffers that cover bytes. -/
def nonempty : List ℕ := (List.range S.sizes.length).filter fun i => S.size i ≠ 0

def initialAddrs : List ℤ := (List.range S.sizes.length).map fun i =>
  if S.size i = 0 then
    (S.placeEmpty i S.gaps).getD (((S.rangesOf i).head?.map Run.start).getD 0)
  else -1

/-- `CompactionSearch::run`. -/
def run (budget : ℤ) : Bool × SearchState :=
  let s : SearchState := { addrs := S.initialAddrs, budget := budget }
  let left := S.nonempty
  match S.gaps with
  | [] => (left.isEmpty, s)
  | gap :: above =>
    S.place (left.length + above.length + 1) gap above gap.start left (left.map S.size).sum s

end CompactionSearch

end MlirAie.Buffers
