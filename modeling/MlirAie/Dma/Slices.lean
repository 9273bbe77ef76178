import MlirAie.Dma.Task
import MlirAie.Lib.Moves

/-!
# Slices among the starts around them

A start of a split task becomes a group of consecutive starts, one for each slice and pass. A round
of groups on different channels is interleaved: each first start keeps its place, and the others
follow the round's last, by how far through its group each is.

* `SeqOp`, `SliceOp`: a block before and after its tasks are split;
* `OrderState`, `flush`, `visit`, **`orderSlices`**: the pass over the block;
* `Stops`, `KeepsOrder`: what starts and configures may not pass.
-/

namespace MlirAie.Dma.Slices

open MlirAie.Lib

/-! ## Blocks -/

/-- A task of a block: the place of the configure it comes from, and its slice. -/
structure TaskRef where
  task : ℕ
  slice : ℕ
deriving DecidableEq, Repr

/-- An operation of a block before any task is split. -/
inductive SeqOp
  | configure
  | start (task : ℕ) (op : DMAStartTask)
  | free (task : ℕ)
  | await (task : ℕ)
  /-- An RTP write, a lock set or an operation without effect. -/
  | passed
  /-- A sync, a poll, a register write or any other effect. -/
  | effect

/-- Where a start is in its group. -/
structure SliceStart where
  group : ℕ
  index : ℕ
  count : ℕ
  index_lt : 0 < index → index < count
deriving DecidableEq, Repr

inductive SliceKind
  /-- A configure; its slice if its task was split. -/
  | configure (slice : Option LoweredTask)
  | start (task : TaskRef) (repeatCount : StartRepeat) (slice : Option SliceStart)
  | free (task : TaskRef)
  | await (task : TaskRef)
  | passed
  | effect
deriving DecidableEq, Repr

/-- An operation of a block whose tasks are split: the place of the one it comes from, and its number
among those it became. -/
structure SliceOp where
  place : ℕ
  number : ℕ
  kind : SliceKind
deriving DecidableEq, Repr

namespace SliceOp

variable (o : SliceOp)

def configures (task : TaskRef) : Bool :=
  match o.kind with
  | .configure _ => decide (task = ⟨o.place, o.number⟩)
  | _ => false

def starts (task : TaskRef) : Bool :=
  match o.kind with
  | .start t _ _ => decide (task = t)
  | _ => false

/-- A configure of a slice after the first. -/
def late : Bool :=
  match o.kind with
  | .configure _ => decide (0 < o.number)
  | _ => false

end SliceOp

/-! ## Splitting tasks -/

structure Split where
  task : Task
  slices : List NdDmaPattern
  baseFlatOffset : ℤ
  iterations : ℤ

def Split.tasks (c : Split) : List LoweredTask :=
  (Dma.splitIntoTasks c.task c.slices c.baseFlatOffset c.iterations).tasks

def Split.count (c : Split) (op : DMAStartTask) : ℕ :=
  ((c.task.runsOf op).tdiv c.iterations * c.slices.length).toNat

/-- What an operation becomes: the first of them in its place, and the others right after it. -/
def splitOp (calls : ℕ → Option Split) (place : ℕ) : SeqOp → List SliceOp
  | .configure =>
    match calls place with
    | none => [⟨place, 0, .configure none⟩]
    | some c => (List.range (max 1 c.slices.length)).map fun i =>
        ⟨place, i, .configure c.tasks[i]?⟩
  | .start task op =>
    match calls task with
    | none => [⟨place, 0, .start ⟨task, 0⟩ op.repeatCount none⟩]
    | some c => (List.finRange (max 1 (c.count op))).map fun k : Fin (max 1 (c.count op)) =>
        ⟨place, k.1, .start ⟨task, k.1 % c.slices.length⟩ .task
          (some ⟨place, k.1, c.count op, fun h => by have := k.isLt; omega⟩)⟩
  | .free task =>
    match calls task with
    | none => [⟨place, 0, .free ⟨task, 0⟩⟩]
    | some c => (List.range (max 1 c.slices.length)).map fun i => ⟨place, i, .free ⟨task, i⟩⟩
  | .await task => [⟨place, 0, .await ⟨task, (calls task).elim 0 fun c => c.slices.length - 1⟩⟩]
  | .passed => [⟨place, 0, .passed⟩]
  | .effect => [⟨place, 0, .effect⟩]

/-- **A block whose tasks are split.** -/
def splitIntoTasks (calls : ℕ → Option Split) (block : List SeqOp) : List SliceOp :=
  block.zipIdx.flatMap fun op => splitOp calls op.2 op.1

/-- The configures of the slices after the first. -/
def lateTasks (block : List SliceOp) : List SliceOp := block.filter SliceOp.late

/-! ## Ordering the slices -/

/-- A start that waits for the end of its round. -/
structure Pending where
  start : SliceOp
  task : TaskRef
  index : ℕ
  count : ℕ
  head : ℕ
  count_pos : 0 < count

/-- By how far through its group each is, ties in program order. -/
def Pending.less (a b : Pending) : Bool :=
  let lhs := a.index * b.count
  let rhs := b.index * a.count
  if lhs ≠ rhs then decide (lhs < rhs) else decide (a.head < b.head)

/-- The block, and what is known of the round. -/
structure OrderState where
  block : List SliceOp
  lateTasks : List SliceOp
  pending : List Pending := []
  round : List ChannelKey := []
  headOfGroup : ℕ → Option ℕ := fun _ => none
  anchor : Option SliceOp := none
  heads : ℕ := 0

/-- Put starts behind an operation, each with the configure it is the first to need. -/
def place : SliceOp → List SliceOp → List SliceOp → List Pending → List SliceOp × List SliceOp
  | _, block, late, [] => (block, late)
  | after, block, late, p :: pending =>
    let block := moveAfter p.start after block
    match late.find? (·.configures p.task) with
    | some task => place p.start (moveBefore task p.start block) (late.erase task) pending
    | none => place p.start block late pending

/-- The end of a round. -/
def flush (s : OrderState) : OrderState :=
  let placed := s.anchor.elim (s.block, s.lateTasks) fun anchor =>
    place anchor s.block s.lateTasks (s.pending.mergeSort fun a b => !b.less a)
  { block := placed.1, lateTasks := placed.2, heads := s.heads }

variable (channel : ℕ → Option ChannelKey)

/-- The start as one that waits, if it is a later one of a group whose first is in the round. -/
def pendingOf (s : OrderState) (op : SliceOp) (task : TaskRef) (slice : Option SliceStart) :
    Option Pending :=
  slice.bind fun g =>
    if h : 0 < g.index then
      (s.headOfGroup g.group).map fun head =>
        ⟨op, task, g.index, g.count, head, (Nat.zero_le _).trans_lt (g.index_lt h)⟩
    else none

def visitHead (s : OrderState) (op : SliceOp) (slice : Option SliceStart) (c : ChannelKey) :
    OrderState :=
  { s with
    round := c :: s.round
    headOfGroup := slice.elim s.headOfGroup fun g =>
      Function.update s.headOfGroup g.group (some s.heads)
    heads := s.heads + 1
    anchor := some op }

/-- An operation of the block. -/
def visit (s : OrderState) (op : SliceOp) : OrderState :=
  match op.kind with
  | .start task _ slice =>
    match channel task.task with
    | none => flush s
    | some c =>
      match pendingOf s op task slice with
      | some p => { s with pending := s.pending ++ [p] }
      | none => visitHead (if c ∈ s.round then flush s else s) op slice c
  | .free task => if task ∈ s.pending.map (·.task) then flush s else s
  | .configure _ => s
  | .passed => s
  | .await _ => flush s
  | .effect => flush s

/-- **The slices of a block in the order in which they are started.** -/
def orderSlices (block late : List SliceOp) : List SliceOp :=
  (flush (block.foldl (visit channel) { block := block, lateTasks := late })).block

/-! ## What has to stay in order -/

def SliceOp.startsOn (o : SliceOp) (c : ChannelKey) : Bool :=
  match o.kind with
  | .start t _ _ => decide (channel t.task = some c)
  | _ => false

/-- An operation that a start of the task may not pass: an await, any effect, a free of the task, or
a start whose channel is not known. -/
def Stops (task : TaskRef) (o : SliceOp) : Bool :=
  match o.kind with
  | .await _ => true
  | .effect => true
  | .free t => decide (t = task)
  | .start t _ _ => (channel t.task).isNone
  | _ => false

/-- An operation that is never moved. -/
def Fixed (o : SliceOp) : Bool :=
  match o.kind with
  | .start t _ _ => (channel t.task).isNone
  | _ => !o.late

/-- Only starts and late configures move, those of one channel stay in order, and none is lost; a
task is configured before it is started, and no start passes what stops it. -/
structure KeepsOrder (before after : List SliceOp) : Prop where
  perm : after.Perm before
  fixed : after.filter (Fixed channel) = before.filter (Fixed channel)
  starts : ∀ c, after.filter (·.startsOn channel c) = before.filter (·.startsOn channel c)
  configured : ∀ task pre op post, after = pre ++ op :: post → op.starts task →
    (∃ c ∈ before, c.configures task) → ∃ c ∈ pre, c.configures task
  stops : ∀ task s, s.starts task →
    after.filter (fun o => decide (o = s) || Stops channel task o) =
      before.filter (fun o => decide (o = s) || Stops channel task o)

end MlirAie.Dma.Slices
