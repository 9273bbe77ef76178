import MlirAie.Dma.Decompose
import MlirAie.Lib.Cycle

/-!
# Decomposing the descriptor of a task

`aie-decompose-large-dma-bd` rewrites a runtime task whose descriptor no buffer descriptor holds: in
place with a scaled repeat count, as a chain of descriptors, or as one task for each piece.

* `TaskBd`, `Task`, `DMAStartTask`: the task, its descriptor and its uses;
* `whyNotSeparateTasks`, `splitIntoTasks`, **`decomposeTaskBd`**: the rewrite;
* `NdDmaPattern.exec`, `startStreams`: what the executions of started tasks stream.
-/

namespace MlirAie.Dma

open MlirAie.Lib MlirAie.Bd

/-! ## Tasks -/

inductive Operand where
  | absent
  | const (value : ℤ)
  | runtime
deriving DecidableEq, Repr

def Operand.isRuntime : Operand → Bool
  | .runtime => true
  | _ => false

def Operand.getConstant : Operand → Option ℤ
  | .const value => some value
  | _ => none

/-- A descriptor of a task. Sizes and strides are outermost first, `none` a runtime value. -/
structure TaskBd where
  offset : Operand
  len : Operand
  sizes : List (Option ℤ)
  strides : List (Option ℤ)
  sameLength : sizes.length = strides.length
  padDimensions : Bool := false
  lengthParameter : Bool := false
  iteration : Bool := false
  outOfOrderId : Bool := false
  /-- The BD id is a runtime value. -/
  bdIdVal : Bool := false

inductive StartRepeat where
  /-- The count of the task. -/
  | task
  | count (repeatCount : ℕ)
  /-- A runtime value. -/
  | value
  /-- A scratchpad parameter, which the host sets. -/
  | parameter
deriving DecidableEq, Repr

structure DMAStartTask where
  repeatCount : StartRepeat
  /-- The start is in the block that configures the task. -/
  sameBlock : Bool := true
deriving DecidableEq, Repr

/-- An operation that uses the result of the configure. -/
inductive TaskUser where
  | start (op : DMAStartTask)
  | await (sameBlock : Bool)
  | free (sameBlock : Bool)
  | other (name : String) (sameBlock : Bool)
deriving DecidableEq, Repr

def TaskUser.inBlock : TaskUser → Bool
  | .start op => op.sameBlock
  | .await sameBlock => sameBlock
  | .free sameBlock => sameBlock
  | .other _ sameBlock => sameBlock

structure Task where
  channel : ChannelKey
  bd : TaskBd
  /-- The descriptors of the task. -/
  bdCount : ℕ := 1
  takesLocks : Bool := false
  repeatCount : ℕ := 0
  /-- The repeat count is a runtime value. -/
  repeatCountVal : Bool := false
  users : List TaskUser
  underRuntimeControlFlow : Bool := false

/-! ## The pieces of a pass -/

def getConstantIntValues : List (Option ℤ) → Option (List ℤ)
  | [] => some []
  | none :: _ => none
  | some v :: rest => (getConstantIntValues rest).map (v :: ·)

/-- `ns` filled up to `n` elements. -/
def resize (ns : List ℤ) (n : ℕ) (fill : ℤ) : List ℤ := ns ++ List.replicate (n - ns.length) fill

/-- The pattern of a descriptor, innermost first and padded to `kNdDmaDims`, when it has no padding
and a constant offset, length, sizes and strides. -/
def constantPattern (op : TaskBd) : Option NdDmaPattern :=
  if op.padDimensions ∨ op.offset.isRuntime ∨ op.len.isRuntime then none
  else (getConstantIntValues op.sizes).bind fun sizes =>
    (getConstantIntValues op.strides).bind fun strides =>
      if sizes = [] then none
      else
        let sizes := resize sizes.reverse kNdDmaDims 1
        some { offsets := List.replicate sizes.length 0
               sizes := sizes
               strides := resize strides.reverse sizes.length 0 }

/-- Sizes that only repeat the dimensions inside them become one, outermost first. -/
def dropRepeats : List (ℤ × ℤ) → List (ℤ × ℤ)
  | [] => []
  | d :: ds => if d.1 = 1 ∨ d.2 = 0 then (1, d.2) :: dropRepeats ds else d :: ds

attribute [local simp] dropRepeats

/-- Outer dimensions past d2 that re-read the same data are left to restarts. -/
def trimPass (pattern : NdDmaPattern) : NdDmaPattern :=
  let outer := dropRepeats ((pattern.sizes.zip pattern.strides).drop 3).reverse
  { pattern with sizes := pattern.sizes.take 3 ++ (outer.reverse.map Prod.fst) }

structure TaskBdDecomposition where
  /-- The descriptor lowers as it is. -/
  legal : Bool := false
  /-- One pass over the descriptor, less the outer dimensions that only re-read the same data. -/
  pass : NdDmaPattern
  /-- The legal patterns `pass` splits into; empty when no split fits. -/
  pieces : List NdDmaPattern := []

namespace DmaTarget

variable (T : DmaTarget)

/-- A pattern a descriptor of four dimensions holds. -/
def lowerable (p : NdDmaPattern) : Bool :=
  if p.sizes.length ≠ kNdDmaDims then false
  else
    let q := Nd4Pattern.ofDims p.dims p.baseOffset
    if isContiguousTransfer q.sizes q.strides then decide (q.sizes 3 ≤ T.maxIterations)
    else T.patternPassesVerification q

def decomposeTaskBdPattern (bd : TaskBd) : Option TaskBdDecomposition :=
  (constantPattern bd).map fun pattern =>
    if T.lowerable pattern then { legal := true, pass := pattern }
    else
      let pass := trimPass pattern
      if T.lowerable pass then { pass := pass, pieces := [pass] }
      else match T.decomposeNdDmaPattern pass with
        | some pieces => { pass := pass, pieces := pieces }
        | none => { pass := pass }

end DmaTarget

/-- The executions of one pass: one for each index of the dimensions past d2. -/
def iterationCount (pattern : NdDmaPattern) : ℤ := (pattern.sizes.drop 3).prod

/-- The factor decomposition scales the executions of a pass by, in lowest terms. -/
structure IterationScale where
  num : ℤ := 1
  den : ℤ := 1
deriving DecidableEq, Repr

namespace IterationScale

variable (s : IterationScale)

def isOne : Bool := s.num == s.den

/-- `runs` executions of the original are whole executions of the rewrite. -/
def divides (runs : ℤ) : Bool := runs.tmod s.den == 0

def apply (runs : ℤ) : ℤ := runs.tdiv s.den * s.num

def str : String := if s.den = 1 then toString s.num else toString s.num ++ "/" ++ toString s.den

end IterationScale

def NdDmaPattern.iterations (p : NdDmaPattern) : ℤ := p.sizes.getD 3 1

def iterationScale (iterations : ℤ) (after : NdDmaPattern) : IterationScale :=
  let common : ℤ := Int.gcd after.iterations iterations
  ⟨after.iterations.tdiv common, iterations.tdiv common⟩

/-! ## The rewritten tasks -/

def int32 (v : ℤ) : ℤ := v.bmod (2 ^ 32)

def uint32 (v : ℤ) : ℤ := v % 2 ^ 32

structure Descriptor where
  offset : ℤ
  len : ℤ
  sizes : List ℤ
  strides : List ℤ
deriving DecidableEq, Repr

def flatOffsetFromPattern (baseFlatOffset : ℤ) (pattern : NdDmaPattern) : ℤ :=
  baseFlatOffset + pattern.baseOffset +
    (((pattern.offsets.zip pattern.strides).take 4).map fun d => d.1 * d.2).sum

def lenFromInnermost3 (sizesInnermostFirst : List ℤ) : ℤ := (sizesInnermostFirst.take 3).prod

def updateTaskBdInPlace (baseFlatOffset : ℤ) (sub : NdDmaPattern) : Descriptor where
  offset := int32 (flatOffsetFromPattern baseFlatOffset sub)
  len := int32 (lenFromInnermost3 sub.sizes)
  sizes := sub.sizes.reverse
  strides := sub.strides.reverse

def createTaskBd (baseFlatOffset : ℤ) (sub : NdDmaPattern) : Descriptor :=
  let d := updateTaskBdInPlace baseFlatOffset sub
  { d with sizes := d.sizes.map uint32, strides := d.strides.map uint32 }

/-- A task after the rewrite: its chain, and its repeat count. -/
structure LoweredTask where
  bds : List Descriptor
  repeatCount : ℕ
deriving DecidableEq, Repr

structure LoweredStart where
  task : ℕ
  repeatCount : StartRepeat
deriving DecidableEq, Repr

/-- The tasks a task becomes, the first of them in its place, and the starts each start becomes. -/
structure Rewrite where
  tasks : List LoweredTask
  starts : DMAStartTask → List LoweredStart

/-! ## The rewrite -/

def Task.runsOf (task : Task) (start : DMAStartTask) : ℤ :=
  match start.repeatCount with
  | .count n => n + 1
  | _ => task.repeatCount + 1

def whyNotUser (task : Task) (iterations : ℤ) : TaskUser → Option String
  | .other name _ => some ("the task is used by '" ++ name ++ "'")
  | user =>
    if !user.inBlock then some "the task is used outside the block that configures it"
    else match user with
      | .start op =>
        if op.repeatCount = .value then some "a start's repeat count is a runtime value"
        else if op.repeatCount = .parameter then
          some "a start's repeat count is a scratchpad parameter"
        else if (task.runsOf op).tmod iterations ≠ 0 then
          some ("a start runs it " ++ toString (task.runsOf op) ++
            " times, not a whole number of passes over its " ++ toString iterations ++
            "-long iteration dimension")
        else none
      | _ => none

def whyNotSeparateTasks (task : Task) (iterations : ℤ) : Option String :=
  if task.bd.bdIdVal then some "the descriptor's bd_id is a runtime value"
  else if task.repeatCountVal then some "the task's repeat count is a runtime value"
  else task.users.findSome? (whyNotUser task iterations)

def splitIntoTasks (task : Task) (slices : List NdDmaPattern) (baseFlatOffset iterations : ℤ) :
    Rewrite where
  tasks := slices.map fun sub =>
    ⟨[updateTaskBdInPlace baseFlatOffset sub], (uint32 (sub.iterations - 1)).toNat⟩
  starts start :=
    let count := (task.runsOf start).tdiv iterations * slices.length
    (List.range count.toNat).map fun k => ⟨k % slices.length, .task⟩

def checkScaled (scale : IterationScale) (repeatCount : ℤ) (runner count : String) :
    Except String Unit :=
  let before := repeatCount + 1
  if !scale.divides before then
    .error ("cannot decompose: it merges every " ++ toString scale.den ++
      " executions of the buffer descriptor into " ++ toString scale.num ++ ", and " ++ runner ++
      " runs it " ++ toString before ++ " times")
  else
    let after := scale.apply before
    if after - 1 > 2 ^ 31 - 1 then
      .error ("decomposition scales " ++ count ++ " by " ++ scale.str ++ " to " ++
        toString (after - 1) ++ ", beyond a 32-bit repeat_count")
    else .ok ()

def checkScaledUser (scale : IterationScale) : TaskUser → Except String Unit
  | .start op =>
    match op.repeatCount with
    | .task => .ok ()
    | .count n => checkScaled scale n "this start" "this start's repeat count"
    | .value | .parameter =>
      .error ("cannot decompose a buffer descriptor this start repeats a runtime number of times: " ++
        "decomposition needs to scale the count by " ++ scale.str)
  | _ => .ok ()

/-- Every count of the task can be scaled. -/
def checkScale (task : Task) (scale : IterationScale) : Except String Unit :=
  if scale.isOne then .ok ()
  else if task.repeatCountVal then
    .error ("cannot decompose a buffer descriptor whose repeat count is a runtime value: " ++
      "decomposition needs to scale it by " ++ scale.str)
  else do
    checkScaled scale task.repeatCount "the task" "the repeat count"
    task.users.forM (checkScaledUser scale)

def scaleRepeat (scale : IterationScale) (repeatCount : ℕ) : ℕ :=
  if scale.isOne then repeatCount else (scale.apply (repeatCount + 1) - 1).toNat

def StartRepeat.scaled (scale : IterationScale) : StartRepeat → StartRepeat
  | .count n => .count (scaleRepeat scale n)
  | r => r

def rewriteInPlace (task : Task) (sub : NdDmaPattern) (baseFlatOffset iterations : ℤ) : Rewrite :=
  let scale := iterationScale iterations sub
  { tasks := [⟨[updateTaskBdInPlace baseFlatOffset sub], scaleRepeat scale task.repeatCount⟩]
    starts := fun start => [⟨0, start.repeatCount.scaled scale⟩] }

/-- The pieces as one chain; the counts stay. -/
def rewriteChain (task : Task) (bds : List NdDmaPattern) (baseFlatOffset : ℤ) : Rewrite where
  tasks := [⟨(bds.take 1).map (updateTaskBdInPlace baseFlatOffset) ++
    (bds.drop 1).map (createTaskBd baseFlatOffset), task.repeatCount⟩]
  starts start := [⟨0, start.repeatCount⟩]

/-- A descriptor of more dimensions than a BD has, which the pass cannot reduce. -/
def cannotReduce (task : Task) (why : String) : String :=
  "has " ++ toString task.bd.sizes.length ++ " dimensions, and a buffer descriptor holds " ++
    toString kNdDmaDims ++ "; the extra ones can only be split off " ++ why

/-- Leaves the task whole, which is an error where it has too many dimensions. -/
def leaveWhole (task : Task) (why : String) : Except String (Option Rewrite) :=
  if task.bd.sizes.length > kNdDmaDims then .error why else .ok none

/-- Every member of a chain runs once for each execution of the task. -/
def sharedRepeat (iterations : ℤ) (bds : List NdDmaPattern) : Bool :=
  bds.all fun sub => (iterationScale iterations sub).isOne

def chainFits (T : DmaTarget) (iterations : ℤ) (bds : List NdDmaPattern) : Bool :=
  sharedRepeat iterations bds && decide (bds.length ≤ T.tm.getNumBDs T.tile)

/-- A chain holds all of its descriptors until it finishes. -/
def outgrowsQueue (T : DmaTarget) (task : Task) (bds : List NdDmaPattern) : Bool :=
  let depth := T.tm.getDmaTaskQueueDepth task.channel
  decide (depth > 0) && decide (bds.length > depth)

/-- More than one piece: a chain where it fits, else separate tasks. Slices of an out-of-order
descriptor would share its one slot. -/
def decomposePiecesOf (T : DmaTarget) (task : Task) (bds : List NdDmaPattern)
    (baseFlatOffset iterations : ℤ) : Except String (Option Rewrite) :=
  let chain := Except.ok (some (rewriteChain task bds baseFlatOffset))
  if task.bd.outOfOrderId then
    .error "splitting an out-of-order buffer descriptor into multiple descriptors is not implemented"
  else if !chainFits T iterations bds || outgrowsQueue T task bds then
    if task.underRuntimeControlFlow then
      leaveWhole task (cannotReduce task ("outside runtime control flow, since its " ++
        toString bds.length ++ " pieces have to be separate tasks"))
    else match whyNotSeparateTasks task iterations with
      | none => .ok (some (splitIntoTasks task bds baseFlatOffset iterations))
      | some why =>
        if !sharedRepeat iterations bds then
          .error ("cannot split this buffer descriptor: its slices need per-descriptor repeat " ++
            "counts, which a chain shares, and they cannot be separate tasks because " ++ why)
        else if !chainFits T iterations bds then
          .error ("cannot split this buffer descriptor: its " ++ toString bds.length ++
            " slices outnumber the tile's " ++ toString (T.tm.getNumBDs T.tile) ++
            " buffer descriptors, and they cannot be separate tasks because " ++ why)
        else chain
  else chain

/-- **Rewrites a task's descriptor into legal ones**; `none` leaves the task as it is. -/
def decomposeTaskBd (T : DmaTarget) (task : Task) : Except String (Option Rewrite) :=
  match T.decomposeTaskBdPattern task.bd with
  | none => leaveWhole task (cannotReduce task
      "a descriptor whose offset, length, sizes and strides are all constant and that has no padding")
  | some plan =>
    if task.bdCount ≠ 1 then leaveWhole task (cannotReduce task "a task's only descriptor")
    else if task.takesLocks then
      leaveWhole task (cannotReduce task "a descriptor that takes no locks")
    else if task.bd.lengthParameter then .ok none
    else if plan.legal then .ok none
    else if task.bd.iteration then
      .error ("buffer descriptor with the iteration attribute is too large to lower and cannot be " ++
        "decomposed")
    else
      let iterations := iterationCount plan.pass
      let baseFlatOffset := task.bd.offset.getConstant.getD 0
      match plan.pieces with
      | [] => leaveWhole task ("has " ++ toString task.bd.sizes.length ++
          " dimensions, and no split into at most " ++ toString kMaxNdDmaPieces ++
          " descriptors of " ++ toString kNdDmaDims ++ " fits this tile")
      | [sub] => (checkScale task (iterationScale iterations sub)).map fun _ =>
          some (rewriteInPlace task sub baseFlatOffset iterations)
      | bds => decomposePiecesOf T task bds baseFlatOffset iterations

/-! ## What the executions stream -/

/-- The displacement of execution `k` of the iteration dimensions: every dimension counts the wraps
of the one inside it, and wraps at its size. -/
def iterOffset (k : ℕ) : List NdDim → ℤ
  | [] => 0
  | d :: ds => (d.offset + (k % d.size.toNat : ℕ)) * d.stride + iterOffset (k / d.size.toNat) ds

attribute [local simp] iterOffset

/-- **The addresses of execution `k` of a pattern**: the block of d0 to d2 at its iteration index. -/
def NdDmaPattern.exec (p : NdDmaPattern) (k : ℕ) : List ℤ :=
  addressesFrom (p.baseOffset + iterOffset k (p.dims.drop 3)) (p.dims.take 3)

def Descriptor.pattern (d : Descriptor) : NdDmaPattern where
  offsets := List.replicate d.sizes.length 0
  sizes := d.sizes.reverse
  strides := d.strides.reverse
  baseOffset := d.offset

/-- Execution `k` of a chain runs each of its members once. -/
def execChain (ps : List NdDmaPattern) (k : ℕ) : List ℤ := ps.flatMap fun p => p.exec k

/-- A push of a task to the queue, and how often it runs. -/
structure Push where
  task : ℕ
  runs : ℕ

/-- What consecutive pushes stream. The iteration indices of a task, which has executed
`executed task` times so far, go on where the push before left them. -/
def pushStreams (tasks : ℕ → List NdDmaPattern) :
    (ℕ → ℕ) → List Push → List ℤ × (ℕ → ℕ)
  | executed, [] => ([], executed)
  | executed, p :: ps =>
    let rest := pushStreams tasks
      (Function.update executed p.task (executed p.task + p.runs)) ps
    (blocks (execChain (tasks p.task)) (executed p.task) p.runs ++ rest.1, rest.2)

/-- What each of a series of starts streams, given by the pushes of each. -/
def startStreams (tasks : ℕ → List NdDmaPattern) (executed : ℕ → ℕ) :
    List (List Push) → List (List ℤ)
  | [] => []
  | pushes :: rest =>
    let r := pushStreams tasks executed pushes
    r.1 :: startStreams tasks r.2 rest

/-- One start as the sequence runs it. `carried` is a start whose task reaches it through a region
argument or result; `value` is what its repeat count is at run time, where that is not constant. -/
structure StartRun where
  op : DMAStartTask
  carried : Bool := false
  value : ℕ := 0

/-- The executions of a start with the given count. -/
def runCount (r : StartRepeat) (taskRepeatCount : ℕ) (taskRepeatCountVal : Bool) (value : ℕ) : ℕ :=
  match r with
  | .count n => n + 1
  | .value | .parameter => value + 1
  | .task => (if taskRepeatCountVal then value else taskRepeatCount) + 1

/-- The starts of a task: those among its users, and any through a carried value, which an operation
among the users carries. -/
def Task.StartsOf (task : Task) (runs : List StartRun) : Prop :=
  ∀ r ∈ runs, if r.carried then ∃ name inBlock, .other name inBlock ∈ task.users
    else .start r.op ∈ task.users

def TaskBd.original (bd : TaskBd) (sizes strides : List ℤ) : NdDmaPattern where
  offsets := List.replicate sizes.length 0
  sizes := sizes.reverse
  strides := strides.reverse
  baseOffset := bd.offset.getConstant.getD 0

/-- **What the starts of a task stream before the rewrite.** -/
def Task.streams (task : Task) (original : NdDmaPattern) (runs : List StartRun) : List (List ℤ) :=
  startStreams (fun _ => [original]) (fun _ => 0) (runs.map fun r =>
    [⟨0, runCount r.op.repeatCount task.repeatCount task.repeatCountVal r.value⟩])

def Rewrite.startsOf (rw : Rewrite) (r : StartRun) : List LoweredStart :=
  if r.carried then [⟨0, r.op.repeatCount⟩] else rw.starts r.op

/-- **What the starts of a task stream after the rewrite.** -/
def Rewrite.streams (rw : Rewrite) (task : Task) (runs : List StartRun) : List (List ℤ) :=
  startStreams (fun i => ((rw.tasks[i]?).elim [] LoweredTask.bds).map Descriptor.pattern)
    (fun _ => 0) (runs.map fun r => (rw.startsOf r).map fun s =>
      ⟨s.task, runCount s.repeatCount ((rw.tasks[s.task]?).elim 0 LoweredTask.repeatCount)
        task.repeatCountVal r.value⟩)

end MlirAie.Dma
