import MlirAie.Queue.Guard

/-!
# Runtime sequences of DMA tasks

The straight-line sequence the allocator of buffer-descriptor ids runs on, and the checks made
before it allocates.

* `ConfigureTask`: a task and its chain of descriptors, some with ids of their own;
* `RuntimeOp`, `RuntimeSequence`: the operations, each configure once;
* `verifyChannelUsage`: the token balance of every channel, and the polls where a push could land
  on a full queue.
-/

namespace MlirAie.BdIds

open MlirAie.Queue

abbrev Tile := ℤ × ℤ

/-- `DMAConfigureTaskOp`: the channel of a task and the ids its descriptors specify, in the order
they are visited. `firstBd` is the position of the chain's head. -/
structure ConfigureTask where
  col : ℤ
  row : ℤ
  direction : DMAChannelDir
  channel : ℤ
  issueToken : Bool
  bds : List (Option ℕ)
  firstBd : Option ℕ

namespace ConfigureTask

variable (cfg : ConfigureTask)

def tile : Tile := (cfg.col, cfg.row)

def channelOf : ChannelKey := ⟨cfg.col, cfg.row, cfg.direction.toInt, cfg.channel⟩

end ConfigureTask

/-- The operations of a sequence. Tasks are named by the position of their configure in the list of
configures. -/
inductive RuntimeOp
  | configure (task : ℕ)
  /-- `issuesToken` is what this push does, `hasRepeatParameter` that its count is a parameter. -/
  | start (task : ℕ) (issuesToken hasRepeatParameter : Bool)
  | await (task : ℕ)
  | free (task : ℕ)
  /-- A raw sync or wait; `none` where its channel cannot be pinned down. -/
  | otherAwait (key : Option ChannelKey)
  /-- A raw push or a memcpy transfer. -/
  | otherPush (key : ChannelKey) (issuesToken : Bool)
  | maskPoll (p : NpuMaskPollOp)
deriving DecidableEq, Repr

def RuntimeOp.configured? : RuntimeOp → Option ℕ
  | .configure task => some task
  | _ => none

def RuntimeOp.starts (task : ℕ) : RuntimeOp → Bool
  | .start t _ _ => t == task
  | _ => false

/-- A sequence: an operation stands in it once. -/
structure RuntimeSequence where
  cfgs : ℕ → ConfigureTask
  ops : List RuntimeOp
  configures_nodup : (ops.filterMap RuntimeOp.configured?).Nodup

/-- The options of the pass and what it reads of the device. -/
structure PassContext where
  tm : AIETargetModel
  /-- The ids the static DMAs take. -/
  staticBdIds : Tile → Finset ℕ
  enforceQueueDepth : Bool
  reclaimBds : Bool

namespace PassContext

variable (C : PassContext) (cfgs : ℕ → ConfigureTask)

def guardQueueOverflow (key : ChannelKey) (q : ChannelState) : Option NpuMaskPollOp :=
  if wouldOverflow q (C.tm.getDmaTaskQueueDepth key) && C.enforceQueueDepth then
    insertQueueSpaceWait C.tm key (BitVec.ofNat 32 (C.tm.getDmaTaskQueueDepth key))
  else none

/-- One pass over the sequence: `avail` counts each channel's tokens. An await without one fails. -/
def verifyChannelUsage : (ChannelKey → ℕ) → (ChannelKey → ChannelState) → List RuntimeOp →
    Option (List RuntimeOp)
  | _, _, [] => some []
  | avail, queue, .start task issuesToken hasRepeatParameter :: rest =>
    let key := (cfgs task).channelOf
    let poll := C.guardQueueOverflow key (queue key)
    let q := if poll.isSome then noteSpaceGuaranteed (queue key) (C.tm.getDmaTaskQueueDepth key)
      else queue key
    (verifyChannelUsage (if issuesToken then Function.update avail key (avail key + 1) else avail)
      (Function.update queue key (push q issuesToken)) rest).map fun ops =>
        poll.toList.map .maskPoll ++ .start task issuesToken hasRepeatParameter :: ops
  | avail, queue, .await task :: rest =>
    let key := (cfgs task).channelOf
    if !(cfgs task).issueToken then
      (verifyChannelUsage avail queue rest).map (.await task :: ·)
    else if avail key < 1 then none
    else
      (verifyChannelUsage (Function.update avail key (avail key - 1))
        (Function.update queue key (awaitToken (queue key))) rest).map (.await task :: ·)
  | avail, queue, .otherAwait (some key) :: rest =>
    (verifyChannelUsage (Function.update avail key (avail key - 1))
      (Function.update queue key (awaitToken (queue key))) rest).map (.otherAwait (some key) :: ·)
  | avail, queue, .otherPush key issuesToken :: rest =>
    if issuesToken then
      (verifyChannelUsage (Function.update avail key (avail key + 1))
        (Function.update queue key (push (queue key) true)) rest).map
          (.otherPush key issuesToken :: ·)
    else (verifyChannelUsage avail queue rest).map (.otherPush key issuesToken :: ·)
  | avail, queue, op :: rest => (verifyChannelUsage avail queue rest).map (op :: ·)

variable {C cfgs}

theorem verifyChannelUsage_ops {avail : ChannelKey → ℕ} {queue : ChannelKey → ChannelState}
    {ops out : List RuntimeOp} (h : C.verifyChannelUsage cfgs avail queue ops = some out) :
    out.filterMap RuntimeOp.configured? = ops.filterMap RuntimeOp.configured? ∧
      ∀ task, .free task ∈ out → .free task ∈ ops := by
  induction ops generalizing avail queue out with
  | nil =>
    cases h
    exact ⟨rfl, fun _ h => h⟩
  | cons op rest ih =>
    have hcons {avail : ChannelKey → ℕ} {queue : ChannelKey → ChannelState}
        {p : Option NpuMaskPollOp}
        (h : (C.verifyChannelUsage cfgs avail queue rest).map
          (fun ops => p.toList.map .maskPoll ++ op :: ops) = some out) :
        out.filterMap RuntimeOp.configured? = (op :: rest).filterMap RuntimeOp.configured? ∧
          ∀ task, .free task ∈ out → .free task ∈ op :: rest := by
      obtain ⟨out', hout', rfl⟩ := Option.map_eq_some_iff.1 h
      obtain ⟨hconf, hfree⟩ := ih hout'
      have hpoll : (p.toList.map RuntimeOp.maskPoll).filterMap RuntimeOp.configured? = [] := by
        cases p <;> rfl
      refine ⟨?_, fun task hmem => ?_⟩
      · rw [List.filterMap_append, hpoll, List.nil_append, List.filterMap_cons,
          List.filterMap_cons, hconf]
      · rcases List.mem_append.1 hmem with hmem | hmem
        · obtain ⟨p, -, hp⟩ := List.mem_map.1 hmem
          cases hp
        · rcases List.mem_cons.1 hmem with heq | hmem
          · exact heq ▸ List.mem_cons_self
          · exact List.mem_cons_of_mem _ (hfree task hmem)
    have hcons' {avail : ChannelKey → ℕ} {queue : ChannelKey → ChannelState}
        (h : (C.verifyChannelUsage cfgs avail queue rest).map (op :: ·) = some out) :
        out.filterMap RuntimeOp.configured? = (op :: rest).filterMap RuntimeOp.configured? ∧
          ∀ task, .free task ∈ out → .free task ∈ op :: rest := hcons (p := none) h
    cases op with
    | start task issuesToken hasRepeatParameter => exact hcons h
    | await task =>
      simp only [verifyChannelUsage] at h
      split_ifs at h
      · exact hcons' h
      · exact hcons' h
    | otherAwait key =>
      cases key with
      | none => exact hcons' h
      | some key => exact hcons' h
    | otherPush key issuesToken =>
      simp only [verifyChannelUsage] at h
      split_ifs at h
      · exact hcons' h
      · exact hcons' h
    | configure task => exact hcons' h
    | free task => exact hcons' h
    | maskPoll p => exact hcons' h

end PassContext

end MlirAie.BdIds
