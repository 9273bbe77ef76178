import MlirAie.Engine.Graph
import MlirAie.Lib.While

/-!
# The scheduler

The state behind the scheduler's mutex, the critical sections of its workers and the outcomes of
the tasks they run between them.

* `State`: the scheduler's members, its workers, and what was started and how it ended;
* `Scheduler.rescan`, `Scheduler.head`, `Scheduler.fold`: opening and queueing, taking a task, and
  folding a finished task back;
* `Scheduler.Step`, `Scheduler.Run`: any order of the workers' steps, from any preload.
-/

namespace MlirAie.Engine

open MlirAie.Lib

abbrev Key := String

abbrev Path := String

/-- A slot of a node: the item's key, and the path it has when it is produced. -/
structure Item where
  key : Key
  filePath : Path
deriving DecidableEq, Repr

/-- The edge, and the position of the item; the whole edge without one. -/
abbrev Task := ℕ × Option ℕ

/-- `EdgeState`; `itemState` is 0 pending, 1 queued or running, 2 done. -/
structure EdgeState where
  opened : Bool := false
  finished : Bool := false
  wholeQueued : Bool := false
  running : ℕ := 0
  itemsDone : ℕ := 0
  itemState : List ℕ := []
  keyIndex : List (Key × ℕ) := []
deriving Repr

/-- A worker before its next look at the queue, waiting for a notification, in a task, or done. -/
inductive Worker
  | ready
  | waiting
  | running (t : Task)
  | returned
deriving DecidableEq, Repr

def Worker.task : Worker → Option Task
  | running t => some t
  | _ => none

structure State where
  st : ℕ → EdgeState := fun _ => {}
  items : ℕ → List Item := fun _ => []
  ready : List Task := []
  seenPaths : List Path := []
  finishedEdges : ℕ := 0
  inFlight : ℕ := 0
  exclusiveBusy : Bool := false
  failed : Bool := false
  stalled : Bool := false
  workers : List Worker := []
  /-- the tasks that workers took, in order -/
  started : List Task := []
  completed : List Task := []
  failures : List Task := []
  /-- the duplicate output paths that were reported -/
  duplicates : List Path := []

namespace State

variable (s : State)

def update (u : ℕ) (f : EdgeState → EdgeState) : State :=
  { s with st := Function.update s.st u (f (s.st u)) }

/-- The tasks that workers are in. -/
def active : List Task := s.workers.filterMap Worker.task

/-- `cv.notify_all()`. -/
def notifyAll : State :=
  { s with workers := s.workers.map fun w => if w = .waiting then .ready else w }

def setWorker (w : ℕ) (worker : Worker) : State :=
  { s with workers := s.workers.set w worker }

end State

/-- What a run of the engine is given: the graph, the edges restored from a checkpoint, the
requested edges, and how an item's path follows from its edge and key. -/
structure Scheduler where
  graph : Graph
  satisfied : ℕ → Bool
  roots : List ℕ
  outputPath : ℕ → Key → Path

namespace Scheduler

variable (S : Scheduler)

def edges : List ℕ := S.graph.reachable S.satisfied S.roots

def numEdges : ℕ := S.edges.length

/-- `stateOf`: none for a producer that is not reachable. -/
def stateOf (s : State) (v : ℕ) : Option EdgeState := if v ∈ S.edges then some (s.st v) else none

def nodeFinalKeys (s : State) (v : ℕ) : Bool := ((S.stateOf s v).map EdgeState.opened).getD true

def nodeComplete (s : State) (v : ℕ) : Bool := ((S.stateOf s v).map EdgeState.finished).getD true

def nodeItemDone (s : State) (v : ℕ) (key : Key) : Bool :=
  match S.stateOf s v with
  | none => true
  | some e =>
    if e.finished then true
    else if S.graph.fan v && e.opened then
      match e.keyIndex.lookup key with
      | none => true
      | some i => e.itemState[i]? = some 2
    else false

def producesFiles (u : ℕ) : Bool := (S.graph.edges[u]?.map Edge.producesFiles).getD false

/-- The loop of `recordPaths`: it ends at the first path that was seen. -/
def recordPathsFrom : List Item → State → Bool × State
  | [], s => (true, s)
  | it :: items, s =>
    if it.filePath = "" then recordPathsFrom items s
    else if it.filePath ∈ s.seenPaths then
      (false, { s with duplicates := s.duplicates ++ [it.filePath] })
    else recordPathsFrom items { s with seenPaths := it.filePath :: s.seenPaths }

def recordPaths (u : ℕ) (s : State) : Bool × State :=
  if S.producesFiles u then recordPathsFrom (s.items u) s else (true, s)

/-- `++finishedEdges`, then the duplicate-path guard. -/
def noteFinished (u : ℕ) (s : State) : State :=
  let r := S.recordPaths u { s with finishedEdges := s.finishedEdges + 1 }
  if r.1 then r.2 else { r.2 with failed := true }

/-- `prepare()`: a slot for each key of the first input. -/
def prepare (u : ℕ) (s : State) : State :=
  let keys := ((S.graph.inputs u).head?.map s.items).getD []
  { s with
    items := Function.update s.items u (keys.map fun it => ⟨it.key, S.outputPath u it.key⟩) }

/-- `keyIndex[itemKey(i)] = i` for each slot, the last one first. -/
def indexKeys (items : List Item) : List (Key × ℕ) := (items.mapIdx fun i it => (it.key, i)).reverse

def openEdge (u : ℕ) (s : State) : State :=
  let s := S.prepare u s
  let s := s.update u fun e =>
    { e with
      opened := true, itemState := List.replicate (s.items u).length 0,
      keyIndex := indexKeys (s.items u), finished := e.finished || (s.items u).isEmpty }
  if (s.items u).isEmpty then S.noteFinished u s else s

/-- `itemKey(i)`. -/
def itemKey (s : State) (u i : ℕ) : Key := (((s.items u)[i]?).map Item.key).getD ""

def visitItem (u : ℕ) (r : State × Bool) (i : ℕ) : State × Bool :=
  let s := r.1
  if (s.st u).itemState[i]? = some 0 &&
      (S.graph.inputs u).all fun v => S.nodeItemDone s v (itemKey s u i) then
    ({ s.update u fun e => { e with itemState := e.itemState.set i 1 } with
        ready := s.ready ++ [(u, some i)] }, true)
  else r

/-- The visit of one edge in a pass of `rescan`; the flag is `changed`. -/
def visitEdge (r : State × Bool) (u : ℕ) : State × Bool :=
  let s := r.1
  if s.failed then r
  else if (s.st u).finished then r
  else if !S.graph.fan u then
    if (s.st u).wholeQueued || 0 < (s.st u).running then r
    else if (S.graph.inputs u).all (S.nodeComplete s) then
      ({ s.update u fun e => { e with wholeQueued := true } with
          ready := s.ready ++ [(u, none)] }, true)
    else r
  else if (s.st u).opened then (List.range (s.st u).itemState.length).foldl (S.visitItem u) r
  else if (S.graph.inputs u).all (S.nodeFinalKeys s) then (S.openEdge u s, true)
  else r

/-- The loop of `rescan`: passes over the edges until one changes nothing. -/
def rescanLoop : Loop (State × Bool) Empty where
  guard r := r.2 && !r.1.failed
  body r := .ok (S.edges.foldl S.visitEdge (r.1, false))

/-- `rescan` with a bound on its passes. -/
def rescan (fuel : ℕ) (s : State) : Option State :=
  match S.rescanLoop.run fuel (s, true) with
  | some (.ok r) => some r.1
  | some (.error e) => e.elim
  | none => none

/-- `pickTask`: the first task that is thread-safe, or any if no exclusive task is running. -/
def pickTask (busy : Bool) : List Task → Option (Task × List Task)
  | [] => none
  | t :: ready =>
    if S.graph.threadSafe t.1 || !busy then some (t, ready)
    else (pickTask busy ready).map fun r => (r.1, t :: r.2)

/-- The worker at the head of its loop: it returns, takes a task, or waits. -/
def head (w : ℕ) (s : State) : State :=
  if s.failed || S.numEdges ≤ s.finishedEdges then (s.setWorker w .returned).notifyAll
  else
    match S.pickTask s.exclusiveBusy s.ready with
    | some (t, ready) =>
      { (s.update t.1 fun e => { e with running := e.running + 1 }).setWorker w (.running t) with
        ready := ready, inFlight := s.inFlight + 1, started := s.started ++ [t],
        exclusiveBusy := s.exclusiveBusy || !S.graph.threadSafe t.1 }
    | none =>
      if s.ready = [] ∧ s.inFlight = 0 then
        ({ s with stalled := true, failed := true }.setWorker w .returned).notifyAll
      else s.setWorker w .waiting

/-- The lock is taken again after a task. -/
def release (w : ℕ) (t : Task) (s : State) : State :=
  { (s.update t.1 fun e => { e with running := e.running - 1 }).setWorker w .ready with
    inFlight := s.inFlight - 1,
    exclusiveBusy := if S.graph.threadSafe t.1 then s.exclusiveBusy else false }

/-- How the task ended: with the items of the node, the path of the item, or a failure. -/
inductive Outcome
  | items (l : List Item)
  | path (p : Path)
  | failure

/-- Folds a finished task into the schedule; `rescan` is given by its result. -/
def fold (t : Task) (o : Outcome) (s : State) : State :=
  match t.2, o with
  | none, .items l =>
    S.noteFinished t.1
      { s.update t.1 fun e => { e with opened := true, finished := true } with
        items := Function.update s.items t.1 l, completed := s.completed ++ [t] }
  | some i, .path p =>
    let s := s.update t.1 fun e =>
      { e with itemState := e.itemState.set i 2, itemsDone := e.itemsDone + 1 }
    let s := { s with
      items := Function.update s.items t.1
        ((s.items t.1).modify i fun it => { it with filePath := p }),
      completed := s.completed ++ [t] }
    if (s.st t.1).itemsDone = (s.st t.1).itemState.length then
      S.noteFinished t.1 (s.update t.1 fun e => { e with finished := true })
    else s
  | _, _ => { s with failed := true, failures := s.failures ++ [t] }

/-- What a task that succeeds can end with. -/
def Outcome.Fits (t : Task) : Outcome → Prop
  | items l => t.2 = none ∧ (l.map Item.key).Nodup
  | path _ => t.2 ≠ none
  | failure => False

/-- `if (!failed) rescan();` -/
def Rescans (s s' : State) : Prop :=
  if s.failed then s' = s else ∃ fuel, S.rescan fuel s = some s'

/-- The rest of a worker's loop after a task that succeeded. -/
def finish (w : ℕ) (s : State) : State :=
  if S.numEdges ≤ s.finishedEdges then (s.notifyAll.setWorker w .returned).notifyAll
  else S.head w s.notifyAll

/-- One critical section. A worker that is not in a task looks at the queue, also when it wakes up
from its wait. A worker whose task ended folds it back, has the edges rescanned unless the build
failed, notifies the others and goes on at the head of its loop. -/
inductive Step : State → State → Prop
  | look {s : State} {w : ℕ}
      (hw : s.workers[w]? = some .ready ∨ s.workers[w]? = some .waiting) : Step s (S.head w s)
  | failure {s : State} {w : ℕ} {t : Task} (hw : s.workers[w]? = some (.running t)) :
      Step s (S.head w (S.fold t .failure (S.release w t s)).notifyAll)
  | success {s s' : State} {w : ℕ} {t : Task} {o : Outcome}
      (hw : s.workers[w]? = some (.running t)) (ho : o.Fits t)
      (hs : S.Rescans (S.fold t o (S.release w t s)) s') : Step s (S.finish w s')

/-- The loop of `run` that preloads the restored edges; `none` where it fails. -/
def preload (restored : ℕ → Option (List Item)) : List ℕ → State → Option State
  | [], s => some s
  | u :: us, s =>
    if S.satisfied u then
      match restored u with
      | none => none
      | some l =>
        let s := S.noteFinished u
          { s.update u fun e => { e with opened := true, finished := true } with
            items := Function.update s.items u l }
        if s.failed then none else preload restored us s
    else preload restored us s

/-- The runs of the pool with `n` workers, after the preload and the first `rescan`. -/
inductive Run (n : ℕ) : State → Prop
  | start {restored : ℕ → Option (List Item)} {s s' : State}
      (hkeys : ∀ u l, restored u = some l → (l.map Item.key).Nodup)
      (hpre : S.preload restored S.edges {} = some s) (hs : S.Rescans s s')
      (hok : s'.failed = false) : Run n { s' with workers := List.replicate n .ready }
  | step {s s' : State} : Run n s → S.Step s s' → Run n s'

end Scheduler

end MlirAie.Engine
