import MlirAie.Lib.Covering

/-!
# What a receiver takes in alone

A channel's descriptors are run from the initial lock values until an acquire blocks. A cycle that
leaves every lock no worse than it found it runs again the same way, so the analysis stops there.

* `DmaChannelProgram`: a chain of descriptors, how it loops and how often it is run;
* `chainBlocks`, `blockAt`, **`programCapacity`**: the analysis;
* `CapacityExact`: what the analysis finds, against the run.
-/

namespace MlirAie.Stream

/-! ## Descriptor chains -/

inductive LockAction
  | acquire
  | acquireGE
  | release
deriving DecidableEq, Repr

structure UseLockOp where
  lock : ℕ
  action : LockAction
  amount : Option ℤ
deriving DecidableEq, Repr

inductive BdOp
  | useLock (use : UseLockOp)
  | dmaBd (lenInBytes : ℕ)
  | other
deriving DecidableEq, Repr

structure DmaChannelProgram where
  /-- Whether the device itself starts the channel. -/
  isStatic : Bool := true
  /-- Whether the locks hold a state, as those of AIE1 do, or count. -/
  stateLocks : Bool
  init : ℕ → Option ℤ
  bds : List (List BdOp)
  regions : List (List BdOp) := []
  loops : Bool := false
  loopStart : ℕ := 0
  passes : ℕ := 1
  loopStart_lt : loops = true → bds ++ regions ≠ [] → loopStart < (bds ++ regions).length

namespace DmaChannelProgram

variable (p : DmaChannelProgram)

/-- The blocks in the order the channel runs them. -/
def chainBlocks : List (List BdOp) := p.bds ++ p.regions

def size : ℕ := p.chainBlocks.length

/-- Where the cycle begins. -/
def start : ℕ := if p.loops then p.loopStart else 0

/-- The block run at a step: those before the cycle once, then the cycle over and over. -/
def blockAt (step : ℕ) : ℕ :=
  if step < p.start then step else p.start + (step - p.start) % (p.size - p.start)

def block (step : ℕ) : List BdOp := p.chainBlocks.getD (p.blockAt step) []

def lockInit (lock : ℕ) : ℤ := (p.init lock).getD 0

/-- Whether the chain has been run as often as it is to be. -/
def ended (step : ℕ) : Bool := !p.loops && decide (p.passes * p.size ≤ step)

end DmaChannelProgram

/-! ## The analysis -/

def maxBDSteps : ℕ := 1024

/-- The analysis at a step: the lock values, the locks used so far, and both when the cycle last
began. -/
structure CapacityState where
  step : ℕ := 0
  lockValues : ℕ → ℤ
  used : Finset ℕ := ∅
  bytes : ℕ := 0
  cycle : Option (Finset ℕ × (ℕ → ℤ)) := none
  cycleBytes : ℕ := 0

namespace DmaChannelProgram

variable (p : DmaChannelProgram)

def analyseOp (s : CapacityState) : BdOp → Except ℕ CapacityState
  | .useLock use =>
    match use.amount with
    | none => .error 0
    | some n =>
      let value := s.lockValues use.lock
      let s := { s with used := insert use.lock s.used }
      let set := fun v => Except.ok { s with lockValues := Function.update s.lockValues use.lock v }
      if p.stateLocks then
        if use.action = .release then set n else if value ≠ n then .error s.bytes else set value
      else if use.action = .release then set (value + n)
      else if use.action ≠ .acquireGE ∨ value < n then .error s.bytes
      else set (value - n)
  | .dmaBd len => .ok { s with bytes := s.bytes + len }
  | .other => .ok s

/-- Whether the last cycle left every lock no worse. -/
def repeats (s : CapacityState) : Bool :=
  s.cycle.any fun c => c.1.card = s.used.card && decide (∀ lock ∈ s.used,
    if p.stateLocks then s.lockValues lock = c.2 lock else c.2 lock ≤ s.lockValues lock)

/-- A step of the analysis before its block is run. -/
def atStep (s : CapacityState) (next : CapacityState → Option ℕ) : Option ℕ :=
  if p.ended s.step then some s.bytes
  else if p.blockAt s.step = p.start ∧ p.repeats s then
    if p.loops then none
    else some (s.bytes + (p.passes - s.step / p.size) * (s.bytes - s.cycleBytes))
  else if p.blockAt s.step = p.start then
    next { s with cycle := some (s.used, s.lockValues), cycleBytes := s.bytes }
  else next s

/-- The analysis from a state on, for some more steps. -/
def capacityFrom : ℕ → CapacityState → Option ℕ
  | 0, s => p.atStep s fun s => some s.bytes
  | n + 1, s => p.atStep s fun s =>
    match (p.block s.step).foldlM p.analyseOp s with
    | .error bytes => some bytes
    | .ok s => capacityFrom n { s with step := s.step + 1 }

/-- **The capacity of a program**; none if it takes in any amount. -/
def programCapacity : Option ℕ :=
  if !p.isStatic then some 0
  else if p.chainBlocks = [] then some 0
  else p.capacityFrom maxBDSteps { lockValues := p.lockInit }

end DmaChannelProgram

/-! ## The chain run alone -/

/-- The value a lock takes from `v`, none while the operation waits. An acquire waits for the lock to
be set to its amount; where `exactWaits`, that of a counting lock always waits. -/
def UseLockOp.act (use : UseLockOp) (stateLocks exactWaits : Bool) (v : ℤ) : Option ℤ :=
  let n := use.amount.getD 0
  match use.action with
  | .release => some (if stateLocks then n else v + n)
  | .acquire => if v = n ∧ (stateLocks ∨ !exactWaits) then some v else none
  | .acquireGE =>
    if stateLocks then if v = n then some v else none
    else if n ≤ v then some (v - n) else none

/-- How far a chain has come: the lock values, the bytes of the descriptors run, and whether it
waits. -/
structure Progress where
  locks : ℕ → ℤ
  bytes : ℕ := 0
  waits : Bool := false

namespace DmaChannelProgram

variable (p : DmaChannelProgram) (exactWaits : Bool)

def runOp (r : Progress) : BdOp → Progress
  | .useLock use =>
    if r.waits then r
    else match use.act p.stateLocks exactWaits (r.locks use.lock) with
      | none => { r with waits := true }
      | some v => { r with locks := Function.update r.locks use.lock v }
  | .dmaBd len => if r.waits then r else { r with bytes := r.bytes + len }
  | .other => r

/-- The chain after a number of steps. -/
def run : ℕ → Progress
  | 0 => { locks := p.lockInit }
  | k + 1 => if p.ended k then run k else (p.block k).foldl (p.runOp exactWaits) (run k)

/-- The chain has blocked or ended. -/
def Stops (k : ℕ) : Prop := (p.run exactWaits k).waits = true ∨ p.ended k = true

/-- The locks of the blocks of the first steps. -/
def usedLocks (k : ℕ) : Finset ℕ :=
  ((List.range k).flatMap fun i => (p.block i).filterMap fun
    | .useLock use => some use.lock
    | _ => none).toFinset

/-- The values after a cycle are as good as those before it. -/
def NoWorse (before after : ℕ → ℤ) : Prop :=
  if p.stateLocks then after = before else ∀ lock, before lock ≤ after lock

/-- A cycle has been run, with no lock it was the first to use, that leaves every lock no worse. -/
def Repeats (k : ℕ) : Prop :=
  (p.run exactWaits k).waits = false ∧ p.ended k = false ∧ ∃ c < k, p.start ≤ c ∧
    p.blockAt c = p.start ∧ k = c + (p.size - p.start) ∧ p.usedLocks c = p.usedLocks k ∧
    p.NoWorse (p.run exactWaits c).locks (p.run exactWaits k).locks

/-- What the analysis finds: no bound only of a chain that runs forever, and otherwise no more bytes
than the chain takes in, and just those if it stops or repeats a cycle within the analysis' limit. -/
structure CapacityExact (capacity : Option ℕ) : Prop where
  unbounded : capacity = none → p.loops = true ∧ ∀ k, (p.run exactWaits k).waits = false
  le : ∀ b, capacity = some b → ∃ k, b ≤ (p.run exactWaits k).bytes
  exact : ∀ b, capacity = some b →
    (∃ k ≤ maxBDSteps, p.Stops exactWaits k ∨ p.Repeats exactWaits k) →
    ∃ k, p.Stops exactWaits k ∧ b = (p.run exactWaits k).bytes

end DmaChannelProgram

end MlirAie.Stream
