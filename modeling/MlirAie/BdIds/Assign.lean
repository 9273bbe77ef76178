import MlirAie.BdIds.Sequence

/-!
# Assigning buffer-descriptor ids

The allocator walks a sequence once. It hands ids to every configure, takes them back from the
tasks whose completion an await establishes, and, when a tile runs out of ids, from a task a status
poll proves finished.

* `AllocState`: the state of the walk;
* `recycle`, `recycleCompletedTasks`, `reclaimFor`: ids taken back;
* `allocateConfigure`, **`assignRuntimeSequenceBDIDs`**: the ids of every configure, and the polls.
-/

namespace MlirAie.BdIds

open MlirAie.Queue

/-- One push onto a channel: the task it started, `none` for a raw one, whether it issues a token,
and its place in program order. -/
structure StartedTask where
  task : Option ℕ
  issuesToken : Bool
  order : ℕ

/-- A channel's pushes in program order whose tokens no await has consumed yet. The first `finished`
of them are known to have finished. -/
structure ChannelPushes where
  tasks : List StartedTask := []
  finished : ℕ := 0

structure AllocState where
  gens : Tile → Finset ℕ
  /-- The channels `startedOnChannel` has an entry for, in order. -/
  channels : List ChannelKey := []
  startedOnChannel : ChannelKey → ChannelPushes := fun _ => {}
  pushCount : ℕ := 0
  startCount : ℕ → ℕ := fun _ => 0
  runningCount : ℕ → ℕ := fun _ => 0
  knownComplete : Finset ℕ := ∅
  pollProven : Finset ℕ := ∅
  reclaimed : Finset ℕ := ∅
  releasedTasks : Finset ℕ := ∅
  awaitedConfigures : Finset ℕ := ∅
  pendingAwaitReleases : List ℕ := []
  liveByTile : Tile → List ℕ := fun _ => []
  /-- The ids of the tasks configured so far. -/
  bdIds : ℕ → Option (List ℕ) := fun _ => none

namespace AllocState

variable (s : AllocState)

/-- An entry of the channel in `startedOnChannel`. -/
def touch (key : ChannelKey) : AllocState :=
  { s with channels := if key ∈ s.channels then s.channels
      else s.channels.orderedInsert (fun a b => ChannelKey.le a b) key }

def setPushes (key : ChannelKey) (pushes : ChannelPushes) : AllocState :=
  { s.touch key with startedOnChannel := Function.update s.startedOnChannel key pushes }

/-- A count of a task, one up or down. -/
def bump (f : ℕ → ℕ) (counts : ℕ → ℕ) (task : Option ℕ) : ℕ → ℕ :=
  match task with
  | none => counts
  | some t => Function.update counts t (f (counts t))

def notePush (key : ChannelKey) (task : Option ℕ) (issuesToken : Bool) : AllocState :=
  let channel := s.startedOnChannel key
  { s.setPushes key { channel with tasks := channel.tasks ++ [⟨task, issuesToken, s.pushCount⟩] } with
    pushCount := s.pushCount + 1
    startCount := bump (· + 1) s.startCount task
    runningCount := bump (· + 1) s.runningCount task }

/-- The counts of `tasks`, one down for each. -/
def countDown (counts : ℕ → ℕ) (tasks : List StartedTask) : ℕ → ℕ :=
  tasks.foldl (fun c t => bump (· - 1) c t.task) counts

/-- An await consumes the oldest token of the channel: the push that issued it has finished, with
those queued ahead of it. -/
def noteAwaited (key : ChannelKey) : AllocState :=
  let channel := s.startedOnChannel key
  match channel.tasks.findIdx? StartedTask.issuesToken with
  | none => s.touch key
  | some it =>
    let retired := channel.tasks.take (it + 1)
    let startCount := countDown s.startCount retired
    { s.setPushes key ⟨channel.tasks.drop (it + 1),
        channel.finished - min channel.finished (it + 1)⟩ with
      startCount := startCount
      runningCount := countDown s.runningCount (retired.drop channel.finished)
      knownComplete := s.knownComplete ∪
        (retired.filterMap StartedTask.task).toFinset.filter fun t => startCount t = 0 }

/-- Finished pushes, counted down one by one; a task is proven finished with its last one. -/
def countFinished (r : (ℕ → ℕ) × Finset ℕ) (started : StartedTask) : (ℕ → ℕ) × Finset ℕ :=
  let counts := bump (· - 1) r.1 started.task
  (counts, match started.task with
    | none => r.2
    | some t => if counts t = 0 then insert t r.2 else r.2)

/-- At most the newest `unfinished` pushes of the channel are queued or running. -/
def noteDrained (key : ChannelKey) (unfinished : ℕ) : AllocState :=
  let channel := s.startedOnChannel key
  if channel.tasks.length ≤ unfinished then s.touch key
  else
    let done := channel.tasks.length - unfinished
    let r := ((channel.tasks.take done).drop channel.finished).foldl countFinished
      (s.runningCount, s.pollProven)
    { s.setPushes key { channel with finished := max channel.finished done } with
      runningCount := r.1
      pollProven := r.2 }

end AllocState

def queueSizeBound (field value mask : BitVec 32) : ℕ :=
  let shift := countr_zero field
  (List.range (field.toNat >>> shift + 1)).foldl (fun bound size =>
    if ((BitVec.ofNat 32 size <<< shift) &&& mask &&& field) = (value &&& mask &&& field) then size
    else bound) 0

/-- The largest power of two that is not above `n`. -/
def bit_floor (n : ℕ) : ℕ := if n = 0 then 0 else 2 ^ n.log2

namespace PassContext

variable (C : PassContext) (cfgs : ℕ → ConfigureTask)

/-- What a poll of a channel's status register proves. -/
def notePoll (s : AllocState) (p : NpuMaskPollOp) : AllocState :=
  match p.absoluteAddress, p.mask, p.value with
  | some address, some mask, some value =>
    let field := C.tm.getDmaTaskQueueSizeMask
    let idle := C.tm.getDmaChannelIdleMask
    if field = 0 then s
    else
      match s.channels.find? fun key => C.tm.getDmaStatusAddress key == some address with
      | none => s
      | some key =>
        if idle ≠ 0 ∧ mask &&& idle = idle ∧ value &&& idle = 0 then s.noteDrained key 0
        else s.noteDrained key (queueSizeBound field value mask + 1)
  | _, _, _ => s

/-! ## Ids taken back -/

/-- The ids of the task go back to the pool. A second release changes nothing; any other id that is
not in use is an error. -/
def recycle (s : AllocState) (task : ℕ) (isAwait : Bool) : Option AllocState :=
  let s := { s with pendingAwaitReleases := s.pendingAwaitReleases.erase task }
  if task ∈ s.awaitedConfigures ∨ task ∈ s.reclaimed then some s
  else
    match s.bdIds task with
    | none => none
    | some ids =>
      let tile := (cfgs task).tile
      (ids.foldlM (fun (gen : Finset ℕ) id => if id ∈ gen then some (gen.erase id) else none)
        (s.gens tile)).map fun gen =>
          { s with
            gens := Function.update s.gens tile gen
            releasedTasks := insert task s.releasedTasks
            awaitedConfigures := if isAwait then insert task s.awaitedConfigures
              else s.awaitedConfigures }

/-- The task is started again in `rest`. -/
def isStartedAfter (task : ℕ) (rest : List RuntimeOp) : Bool := rest.any (RuntimeOp.starts task)

def recycleCompletedTasks (s : AllocState) (rest : List RuntimeOp) : Option AllocState :=
  s.pendingAwaitReleases.foldlM (fun s task =>
    if task ∉ s.knownComplete ∨ isStartedAfter task rest then some s
    else recycle cfgs s task true) s

/-- The task holds ids that `op`'s channel can use, and is not started again. -/
def isCandidate (s : AllocState) (op : ℕ) (rest : List RuntimeOp) (task : ℕ) : Bool :=
  !decide (task ∈ s.releasedTasks) && !isStartedAfter task rest &&
    ((s.bdIds task).getD []).any fun id =>
      C.tm.isBdChannelAccessible (cfgs op).col (cfgs op).row id (cfgs op).channel

/-- The ids of the task are taken back, on the tile of `op`. -/
def take (s : AllocState) (op task : ℕ) : AllocState :=
  let tile := (cfgs op).tile
  { s with
    gens := Function.update s.gens tile (((s.bdIds task).getD []).foldl Finset.erase (s.gens tile))
    reclaimed := insert task s.reclaimed
    releasedTasks := insert task s.releasedTasks
    pendingAwaitReleases := s.pendingAwaitReleases.erase task }

/-- A task to wait for: how many pushes are queued behind its last one, and that push's place. -/
structure Victim where
  task : ℕ
  queuedBehind : ℕ
  order : ℕ

/-- One with pushes behind it comes first, then the oldest. -/
def Victim.before (a b : Victim) : Bool :=
  if (a.queuedBehind == 0) = (b.queuedBehind == 0) then decide (a.order < b.order)
  else b.queuedBehind == 0

/-- `task` as a task to wait for. -/
def victimOf (s : AllocState) (task : ℕ) : Option Victim :=
  let channel := s.startedOnChannel (cfgs task).channelOf
  match channel.tasks.reverse.findIdx? fun started => started.task == some task with
  | none => none
  | some queuedBehind =>
    if channel.tasks.length - 1 - queuedBehind < channel.finished then none
    else if (if queuedBehind = 0 then C.tm.getDmaChannelIdleMask = 0
        else C.tm.getDmaTaskQueueSizeMask = 0) then none
    else some ⟨task, queuedBehind,
      (channel.tasks.reverse[queuedBehind]?.map StartedTask.order).getD 0⟩

/-- The candidates whose channel has a status register. -/
def pollable (s : AllocState) (op : ℕ) (rest : List RuntimeOp) : List ℕ :=
  (s.liveByTile (cfgs op).tile).filter fun task => C.isCandidate cfgs s op rest task &&
    (C.tm.getDmaStatusAddress (cfgs task).channelOf).isSome

def pickVictim (s : AllocState) (op : ℕ) (rest : List RuntimeOp) : Option Victim :=
  (C.pollable cfgs s op rest).foldl (fun best task =>
    match C.victimOf cfgs s task, best with
    | none, _ => best
    | some v, none => some v
    | some v, some b => if v.before b then some v else some b) none

/-- The largest `2 ^ k - 1` below the pushes queued behind the victim. -/
def victimBound (field : BitVec 32) (queuedBehind : ℕ) : ℕ :=
  min (bit_floor queuedBehind) (bit_floor (field.toNat >>> countr_zero field + 1) / 2) - 1

/-- The poll for the victim, and how many pushes it leaves unfinished. -/
def victimPoll (status : BitVec 32) (queuedBehind : ℕ) : NpuMaskPollOp × ℕ :=
  let field := C.tm.getDmaTaskQueueSizeMask
  if queuedBehind = 0 then (⟨some status, some 0, some C.tm.getDmaChannelIdleMask⟩, 0)
  else
    let bound := victimBound field queuedBehind
    (⟨some status, some 0, some (field &&& ~~~(BitVec.ofNat 32 bound <<< countr_zero field))⟩,
      bound + 1)

/-- Take back the ids of one task on the tile of `op`: one known to have finished, or one that a
poll before `op` proves finished. -/
def reclaimFor (s : AllocState) (op : ℕ) (rest : List RuntimeOp) :
    Option (AllocState × List NpuMaskPollOp) :=
  match (s.liveByTile (cfgs op).tile).find? fun task =>
      (decide (task ∈ s.knownComplete) || decide (task ∈ s.pollProven)) &&
        C.isCandidate cfgs s op rest task with
  | some task => some (take cfgs s op task, [])
  | none =>
    -- looking at a channel's pushes makes an entry for it
    let s := (C.pollable cfgs s op rest).foldl
      (fun s task => s.touch (cfgs task).channelOf) s
    match C.pickVictim cfgs s op rest with
    | none => none
    | some victim =>
      let key := (cfgs victim.task).channelOf
      match C.tm.getDmaStatusAddress key with
      | none => none
      | some status =>
        let poll := C.victimPoll status victim.queuedBehind
        some (take cfgs (s.noteDrained key poll.2) op victim.task, [poll.1])

/-! ## Ids handed out -/

/-- The lowest free id the channel reaches that is a multiple of `alignment`. -/
def nextBdId (tile : Tile) (gen : Finset ℕ) (channel : ℤ) (alignment : ℕ) : Option ℕ :=
  (List.range (C.tm.getNumBDs (C.tm.getTileType tile.1 tile.2))).find? fun id =>
    id % alignment == 0 && !decide (id ∈ gen) &&
      C.tm.isBdChannelAccessible tile.1 tile.2 id channel

/-- An id for a descriptor of `op`, reclaiming while there is none; every reclaim releases a task,
so that `fuel` tasks are enough. -/
def nextOrReclaim (op alignment : ℕ) (rest : List RuntimeOp) :
    ℕ → AllocState → Option (ℕ × AllocState × List NpuMaskPollOp)
  | fuel, s =>
    let tile := (cfgs op).tile
    match C.nextBdId tile (s.gens tile) (cfgs op).channel alignment with
    | some id =>
      some (id, { s with gens := Function.update s.gens tile (insert id (s.gens tile)) }, [])
    | none =>
      if C.reclaimBds then
        match fuel with
        | 0 => none
        | fuel + 1 => (C.reclaimFor cfgs s op rest).bind fun r =>
          (nextOrReclaim op alignment rest fuel r.1).map fun n => (n.1, n.2.1, r.2 ++ n.2.2)
      else none

def honorBdIds (op : ℕ) (gen : Finset ℕ) : Option (Finset ℕ) :=
  ((cfgs op).bds.filterMap id).foldlM (fun gen bdId =>
    if C.tm.isBdChannelAccessible (cfgs op).col (cfgs op).row bdId (cfgs op).channel ∧
        bdId ∉ gen then some (insert bdId gen)
    else none) gen

/-- The ids of the descriptors from position `i` on, and the polls before the configure. -/
def allocateBds (op : ℕ) (alignedHead : Option ℕ) (rest : List RuntimeOp) :
    ℕ → List (Option ℕ) → AllocState → Option (List ℕ × AllocState × List NpuMaskPollOp)
  | _, [], s => some ([], s, [])
  | i, some bdId :: bds, s =>
    (allocateBds op alignedHead rest (i + 1) bds s).map fun r => (bdId :: r.1, r.2)
  | i, none :: bds, s =>
    (C.nextOrReclaim cfgs op (if alignedHead = some i then 4 else 1) rest
      (s.liveByTile (cfgs op).tile).length s).bind fun n =>
        (allocateBds op alignedHead rest (i + 1) bds n.2.1).map fun r =>
          (n.1 :: r.1, r.2.1, n.2.2 ++ r.2.2)

/-- The ids of a task. The chain's head is aligned where a start's count is a parameter. -/
def allocateConfigure (ops : List RuntimeOp) (s : AllocState) (op : ℕ) (rest : List RuntimeOp) :
    Option (List ℕ × AllocState × List NpuMaskPollOp) :=
  let tile := (cfgs op).tile
  (C.honorBdIds cfgs op (s.gens tile)).bind fun gen =>
    let alignedHead := if ops.any fun o => o matches .start _ _ true && o.starts op then
      (cfgs op).firstBd else none
    (C.allocateBds cfgs op alignedHead rest 0 (cfgs op).bds
      { s with gens := Function.update s.gens tile gen }).map fun r =>
        (r.1, { r.2.1 with
          liveByTile := Function.update r.2.1.liveByTile tile (r.2.1.liveByTile tile ++ [op])
          bdIds := Function.update r.2.1.bdIds op (some r.1) }, r.2.2)

/-! ## The walk -/

end PassContext

/-- An operation of the sequence the pass leaves: a configure with its ids, or another one. -/
inductive LoweredOp
  | configure (task : ℕ) (ids : List ℕ)
  | op (o : RuntimeOp)
deriving DecidableEq, Repr

namespace PassContext

variable (C : PassContext) (cfgs : ℕ → ConfigureTask)

/-- One operation of the walk, `rest` those after it. -/
def assignOp (ops : List RuntimeOp) (s : AllocState) (o : RuntimeOp) (rest : List RuntimeOp) :
    Option (AllocState × List LoweredOp) :=
  match o with
  | .configure task =>
    (C.allocateConfigure cfgs ops s task rest).map fun r =>
      (r.2.1, r.2.2.map (fun p => .op (.maskPoll p)) ++ [.configure task r.1])
  | .start task issuesToken _ =>
    if task ∈ s.releasedTasks then none
    else
      let s := { s with knownComplete := s.knownComplete.erase task
                        pollProven := s.pollProven.erase task }
      some (s.notePush (cfgs task).channelOf (some task) issuesToken, [.op o])
  | .maskPoll p => some (C.notePoll s p, [.op o])
  | .await task =>
    let s := if (cfgs task).issueToken then s.noteAwaited (cfgs task).channelOf else s
    let s := { s with pendingAwaitReleases :=
      if task ∈ s.pendingAwaitReleases then s.pendingAwaitReleases
      else s.pendingAwaitReleases ++ [task] }
    (recycleCompletedTasks cfgs s rest).map fun s => (s, [.op o])
  | .otherAwait (some key) =>
    (recycleCompletedTasks cfgs (s.noteAwaited key) rest).map fun s => (s, [.op o])
  | .otherAwait none => some (s, [.op o])
  -- the frees are erased past the walk
  | .free task => (recycle cfgs s task false).map fun s => (s, [])
  | .otherPush key issuesToken =>
    some (if issuesToken then s.notePush key none true else s, [.op o])

def assignOps (ops : List RuntimeOp) : AllocState → List RuntimeOp → Option (List LoweredOp)
  | _, [] => some []
  | s, o :: rest => (C.assignOp cfgs ops s o rest).bind fun r =>
      (assignOps ops r.1 rest).map (r.2 ++ ·)

/-- **The sequence with the ids of every configure**; `none` where the pass fails. -/
def assignRuntimeSequenceBDIDs (seq : RuntimeSequence) : Option (List LoweredOp) :=
  (C.verifyChannelUsage seq.cfgs (fun _ => 0) (fun _ => {}) seq.ops).bind fun ops =>
    C.assignOps seq.cfgs ops { gens := C.staticBdIds } ops

end PassContext

end MlirAie.BdIds
