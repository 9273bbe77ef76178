import MlirAie.Lib.Worklist
import MlirAie.Queue.Model

/-!
# Guarding a sequence's queue depth

`guardSequenceQueueDepth` finds the pushes of a runtime sequence that can land on a full queue. Each
channel is analysed on its own, over the set of its states on the paths reaching an operation.

* `ChannelAnalysis.analyze`: the states past a region, and the pushes that overflow in it;
* `channelExit`: one state for all the paths;
* **`guardSequenceQueueDepth`**.
-/

namespace MlirAie.Queue

open MlirAie.Lib

/-- What an operation does to a channel queue. -/
inductive QueueEffect
  | Ignore
  | Push (key : ChannelKey) (issuesToken : Bool)
  | Await (key : ChannelKey)
deriving DecidableEq, Repr

def QueueEffect.key? : QueueEffect → Option ChannelKey
  | .Ignore => none
  | .Push key _ => some key
  | .Await key => some key

/-- An operation without regions. `id` stands for the operation itself. -/
inductive SeqOp
  | effect (id : ℕ) (e : QueueEffect)
  | poll (p : NpuMaskPollOp)
deriving DecidableEq, Repr

def SeqOp.queueEffect : SeqOp → QueueEffect
  | .effect _ e => e
  | .poll _ => .Ignore

/-- The bounds of an `scf.for`; `none` where they are not constants. -/
structure ForBounds where
  lb : Option (BitVec 64)
  ub : Option (BitVec 64)
  unsignedCmp : Bool

def ForBounds.neverRuns (l : ForBounds) : Bool :=
  match l.lb, l.ub with
  | some lb, some ub => decide (ub.toInt ≤ lb.toInt) &&
      (!l.unsignedCmp || (decide (0 ≤ lb.toInt) && decide (0 ≤ ub.toInt)))
  | _, _ => false

/-- The operations of a block, in order. -/
inductive Region
  | done
  | op (o : SeqOp) (rest : Region)
  | scfFor (bounds : ForBounds) (body rest : Region)
  | scfIf (thenRegion elseRegion rest : Region)
  | unknown (nested rest : Region)

/-- The operations of a region and of those nested in it. -/
def Region.walk : Region → List SeqOp
  | .done => []
  | .op o rest => o :: rest.walk
  | .scfFor _ body rest => body.walk ++ rest.walk
  | .scfIf thenRegion elseRegion rest => thenRegion.walk ++ elseRegion.walk ++ rest.walk
  | .unknown nested rest => nested.walk ++ rest.walk

/-! ## The channels -/

/-- Every channel's queue. -/
abbrev State := List (ChannelKey × ChannelState)

def State.get (s : State) (key : ChannelKey) : ChannelState := (s.lookup key).getD {}

def State.set (s : State) (key : ChannelKey) (q : ChannelState) : State :=
  (key, q) :: s.filter fun entry => entry.1 != key

def ChannelKey.le (a b : ChannelKey) : Bool :=
  if a.col ≠ b.col then decide (a.col ≤ b.col)
  else if a.row ≠ b.row then decide (a.row ≤ b.row)
  else if a.direction ≠ b.direction then decide (a.direction ≤ b.direction)
  else decide (a.channel ≤ b.channel)

/-- The channels with a queue that the entry state or an operation mentions. -/
def trackedKeys (tm : AIETargetModel) (entry : State) (body : Region) : List ChannelKey :=
  ((entry.map Prod.fst ++ body.walk.filterMap fun o => o.queueEffect.key?).filter
    fun key => tm.getDmaTaskQueueDepth key != 0).dedup.insertionSort fun a b => ChannelKey.le a b

def keyByStatus (tm : AIETargetModel) (keys : List ChannelKey) (address : BitVec 32) :
    Option ChannelKey :=
  keys.foldl (fun found key => if tm.getDmaStatusAddress key = some address then some key
    else found) none

/-! ## One channel -/

abbrev States := List ChannelState

/-- One occurrence of each state. -/
def dedupe (states : States) : States := appendNew [] states

/-- The analysis of the channel `key`, one of the channels `keys`. -/
structure ChannelAnalysis where
  tm : AIETargetModel
  keys : List ChannelKey
  key : ChannelKey

namespace ChannelAnalysis

variable (A : ChannelAnalysis)

def depth : ℕ := A.tm.getDmaTaskQueueDepth A.key

def channelEffectOf (o : SeqOp) : QueueEffect :=
  if o.queueEffect.key? = some A.key then o.queueEffect else .Ignore

/-- The analysis visits the channel's own pushes, awaits and polls. -/
def visitsOp : SeqOp → Bool
  | .effect _ e => e.key? == some A.key
  | .poll p => p.absoluteAddress.bind (keyByStatus A.tm A.keys) == some A.key

def visits (region : Region) : Bool := region.walk.any A.visitsOp

/-- The poll's constants prove that the channel's queue has room. -/
def pollsChannel (p : NpuMaskPollOp) : Bool :=
  match p.absoluteAddress, p.mask, p.value with
  | some address, some mask, some value =>
    let fieldMask := A.tm.getDmaTaskQueueSizeMask
    let depth := BitVec.ofNat 32 A.depth
    if fieldMask = 0 ∨ depth &&& (depth - 1) ≠ 0 then false
    else
      let depthBit := depth <<< countr_zero fieldMask
      depthBit != 0 && A.tm.getDmaStatusAddress A.key == some address &&
        (depthBit &&& fieldMask) == depthBit && (mask &&& depthBit) == depthBit &&
        (value &&& depthBit) == 0
  | _, _, _ => false

/-- A queue of which nothing but the depth is known. -/
def unknownState : ChannelState := ⟨List.replicate A.depth false, true⟩

/-- A push of an unknown region overflows, in every state; no wait of it is credited. -/
def unknownStep (r : States × List ℕ) : SeqOp → States × List ℕ
  | .effect id (.Push key _) =>
    if key = A.key then
      (r.1.map fun _ => A.unknownState, r.2 ++ if r.1.isEmpty then [] else [id])
    else r
  | _ => r

def unknownRegion (region : Region) (states : States) : States × List ℕ :=
  let r := region.walk.foldl A.unknownStep (states, [])
  (dedupe r.1, r.2)

/-- A push, past a poll where the queue can be full. -/
def pushState (issuesToken : Bool) (q : ChannelState) : ChannelState :=
  push (if wouldOverflow q A.depth then noteSpaceGuaranteed q A.depth else q) issuesToken

def stepOp (o : SeqOp) (states : States) : States × List ℕ :=
  match o with
  | .poll p =>
    (if A.pollsChannel p then dedupe (states.map fun q => noteSpaceGuaranteed q A.depth)
      else states, [])
  | .effect id _ =>
    match A.channelEffectOf o with
    | .Ignore => (states, [])
    | .Await _ => (dedupe (states.map awaitToken), [])
    | .Push _ issuesToken => (dedupe (states.map (A.pushState issuesToken)),
        if states.any fun q => wouldOverflow q A.depth then [id] else [])

/-- The states that continue, and the overflowing pushes of both parts. -/
def andThen (r : States × List ℕ) (f : States → States × List ℕ) : States × List ℕ :=
  ((f r.1).1, r.2 ++ (f r.1).2)

end ChannelAnalysis

/-- The lists of up to `n` flags. -/
def flagLists : ℕ → List (List Bool)
  | 0 => [[]]
  | n + 1 => [] :: (flagLists n).flatMap fun l => [false :: l, true :: l]

/-- The states of up to `n` pushes. -/
def statesUpTo (n : ℕ) : States :=
  (flagLists n).flatMap fun pushes => [⟨pushes, false⟩, ⟨pushes, true⟩]

/-- The longest queue of the states, `depth` at least. -/
def longest (depth : ℕ) (states : States) : ℕ :=
  states.foldr (fun q n => max q.pushes.length n) depth

namespace ChannelAnalysis

variable (A : ChannelAnalysis)

/-- The states past a region, and the pushes that overflow in it. A loop may run any number of
times: its states are closed under the body, the ones that enter it among them. -/
def analyze : Region → States → States × List ℕ
  | .done, states => (states, [])
  | .op o rest, states =>
    if A.visitsOp o then andThen (A.stepOp o states) (analyze rest) else analyze rest states
  | .scfFor bounds body rest, states =>
    if !A.visits body || bounds.neverRuns then analyze rest states
    else
      andThen (closeFrom (fun q => analyze body [q])
        (statesUpTo (longest A.depth states)).length 0 (states, [])) (analyze rest)
  | .scfIf thenRegion elseRegion rest, states =>
    if !A.visits thenRegion && !A.visits elseRegion then analyze rest states
    else
      let thenStates := analyze thenRegion states
      let elseStates := analyze elseRegion states
      andThen (appendNew thenStates.1 elseStates.1, thenStates.2 ++ elseStates.2) (analyze rest)
  | .unknown nested rest, states =>
    if A.visits nested then andThen (A.unknownRegion nested states) (analyze rest)
    else analyze rest states

end ChannelAnalysis

/-- The state of the one path, or the largest occupancy where paths disagree. -/
def channelExit : States → ChannelState
  | [] => {}
  | q :: qs => (q :: qs).foldl (fun exit state =>
      if exit = state then exit
      else ⟨List.replicate (max exit.pushes.length state.pushes.length) false, true⟩) q

/-- The states of one channel past the sequence, and its overflowing pushes. -/
def channelExits (tm : AIETargetModel) (entry : State) (body : Region) (key : ChannelKey) :
    States × List ℕ :=
  ChannelAnalysis.analyze ⟨tm, trackedKeys tm entry body, key⟩ body [entry.get key]

def guardChannel (tm : AIETargetModel) (entry : State) (body : Region) (r : List ℕ × State)
    (key : ChannelKey) : List ℕ × State :=
  let exits := channelExits tm entry body key
  (appendNew r.1 exits.2, r.2.set key (channelExit exits.1))

/-- **The pushes that can land on a full queue**, and every channel's queue past the sequence. -/
def guardSequenceQueueDepth (tm : AIETargetModel) (entry : State) (body : Region) :
    List ℕ × State :=
  (trackedKeys tm entry body).foldl (guardChannel tm entry body) ([], entry)

def insertQueueSpaceWait (tm : AIETargetModel) (key : ChannelKey) (depth : BitVec 32) :
    Option NpuMaskPollOp :=
  let fieldMask := tm.getDmaTaskQueueSizeMask
  if fieldMask = 0 ∨ depth = 0 ∨ depth &&& (depth - 1) ≠ 0 then none
  else
    match tm.getDmaStatusAddress key with
    | none => none
    | some statusAddr =>
      let depthBit := depth <<< countr_zero fieldMask
      if depthBit &&& fieldMask ≠ depthBit then none
      else some ⟨some statusAddr, some 0, some depthBit⟩

end MlirAie.Queue
