import Mathlib

/-!
# Pipelined task groups

The steps of a loop, each in a task group of its own, with a number of groups in flight. With an
`int` the steps are unrolled; with a staged count they stay rolled: the first ones run under
branches, the others in one loop that carries the groups in flight as the handles of their
transfers.

* `pipelined`: the two forms;
* `schedule`: the queue of the steps in flight;
* **`pipelined_rolled_eq_unrolled`**: both forms issue, await and free the same transfers in the
  same order.
-/

namespace MlirAie.Iron

/-! ## Sequences -/

inductive Region
  | then_
  | else_
  | loop
deriving DecidableEq

abbrev Block := List Region

structure Value where
  name : ℕ
  block : Block
deriving DecidableEq

/-- The `step` a body sees: an `int`, or the index of the loop. -/
inductive Step
  | int (k : ℕ)
  | index
deriving DecidableEq

/-- The operations of a sequence. A transfer is configured, and so issued, under its number in the
step; the bound of a branch or a loop is the run-time count. -/
inductive Op
  | configure (result : Value) (step : Step) (number : ℕ)
  | await (task : Value)
  | free (task : Value)
  | if_ (above : ℕ) (thenOps elseOps : List Op)
  | for_ (lower : ℕ) (args params : List Value) (body : List Op) (yielded results : List Value)

/-- A transfer at run time. -/
structure Handle where
  step : ℤ
  number : ℕ
deriving DecidableEq

inductive Event
  | issue (transfer : Handle)
  | await (transfer : Handle)
  | free (transfer : Handle)
deriving DecidableEq

structure State where
  env : Value → Handle
  index : ℤ
  events : List Event

def Step.value (index : ℤ) : Step → ℤ
  | .int k => k
  | .index => index

def bindAll (values : List Value) (handles : List Handle) (env : Value → Handle) : Value → Handle :=
  fun v => ((values.zip handles).lookup v).getD (env v)

def iterate {α : Type} (f : ℤ → α → α) : ℕ → ℤ → α → α
  | 0, _, a => a
  | count + 1, k, a => iterate f count (k + 1) (f k a)

mutual

/-- What an operation does, where the run-time count is `n`. -/
def Op.exec (n : ℤ) : Op → State → State
  | .configure result step number, s =>
    { s with
      env := Function.update s.env result ⟨step.value s.index, number⟩
      events := s.events ++ [.issue ⟨step.value s.index, number⟩] }
  | .await task, s => { s with events := s.events ++ [.await (s.env task)] }
  | .free task, s => { s with events := s.events ++ [.free (s.env task)] }
  | .if_ above thenOps elseOps, s =>
    { s with events := (if above < n then execAll n thenOps s else execAll n elseOps s).events }
  | .for_ lower args params body yielded results, s =>
    let last := iterate (fun k carried =>
      let t := execAll n body ⟨bindAll params carried.1 s.env, k, carried.2⟩
      (yielded.map t.env, t.events)) (n - lower).toNat lower (args.map s.env, s.events)
    { s with env := bindAll results last.1 s.env, events := last.2 }

def execAll (n : ℤ) : List Op → State → State
  | [], s => s
  | op :: ops, s => execAll n ops (op.exec n s)

end

/-! ## Task groups -/

inductive Action
  | await
  | free
deriving DecidableEq

/-- `TaskGroup`, by its `_actions`. -/
structure TaskGroup where
  actions : List (Action × Value)

/-- What is raised: by `pipelined`, by `_check_reaches` (twice), by `_carry_in` and by `yield_`
(twice). -/
inductive PipelineError
  | depth (depth : ℤ)
  | issuedInside
  | issuedBeforeLoop
  | handleCount
  | yieldedCount (yielded carried : ℕ)
  | yieldedShape (yielded carried : List Bool)
deriving DecidableEq

namespace TaskGroup

/-- `emit_transfer`: a waited transfer is both awaited and freed. -/
def emitTransfer (g : TaskGroup) (task : Value) (wait : Bool) : TaskGroup :=
  ⟨g.actions ++ ((if wait then [(.await, task)] else []) ++ [(.free, task)])⟩

def emitTransfers (transfers : List (Value × Bool)) : TaskGroup :=
  transfers.foldl (fun g t => g.emitTransfer t.1 t.2) ⟨[]⟩

/-- `seen.setdefault`, and the flag of an await. -/
def see (seen : List (Value × Bool)) (action : Action × Value) : List (Value × Bool) :=
  let seen := if seen.any (·.1 = action.2) then seen else seen ++ [(action.2, false)]
  if action.1 = .await then seen.map fun e => if e.1 = action.2 then (e.1, true) else e else seen

/-- `_transfers`. -/
def transfers (g : TaskGroup) : List (Value × Bool) := g.actions.foldl see []

/-- `_check_reaches`, from a block outwards. -/
def checkReaches (issued : Block) : Block → Except PipelineError Unit
  | [] => if [] = issued then .ok () else .error .issuedInside
  | region :: parent =>
    if region :: parent = issued then .ok ()
    else if region = .loop then .error .issuedBeforeLoop
    else checkReaches issued parent

/-- `finish` and `finish_task_group`: waits before frees. -/
def finish (g : TaskGroup) (here : Block) : Except PipelineError (List Op) := do
  g.transfers.forM fun t => checkReaches t.1.block here
  .ok (((g.actions.filter fun a => a.1 = .await).map fun a => .await a.2) ++
    (g.actions.filter fun a => a.1 = .free).map fun a => .free a.2)

/-- `_carry_out`: the group's handles and flags. -/
def carryOut (g : TaskGroup) : List Value × List Bool :=
  (g.transfers.map Prod.fst, g.transfers.map Prod.snd)

/-- `_carry_in`. -/
def carryIn (handles : List Value) (waited : List Bool) : Except PipelineError TaskGroup :=
  if handles.length ≠ waited.length then .error .handleCount
  else .ok (emitTransfers (handles.zip waited))

/-- `finish`, one group after the other. -/
def finishAll (here : Block) : List TaskGroup → Except PipelineError (List Op)
  | [] => .ok []
  | g :: groups => do
    let ops ← g.finish here
    let rest ← finishAll here groups
    .ok (ops ++ rest)

/-- `_carry_in`, one group after the other. -/
def carryInAll : List (List Value × List Bool) → Except PipelineError (List TaskGroup)
  | [] => .ok []
  | c :: carried => do
    let g ← carryIn c.1 c.2
    let groups ← carryInAll carried
    .ok (g :: groups)

/-- `rewrap`: the groups over the values of a loop, by the flags of those carried in. -/
def rewrap : List (List Bool) → List Value → Except PipelineError (List TaskGroup)
  | [], _ => .ok []
  | waited :: packers, values => do
    let g ← carryIn (values.take waited.length) waited
    let groups ← rewrap packers (values.drop waited.length)
    .ok (g :: groups)

/-- The slots of a `yield_`, each checked against the group carried in. -/
def yieldSlots : List (List Bool) → List TaskGroup → Except PipelineError (List Value)
  | spec :: specs, g :: groups =>
    if g.carryOut.2 ≠ spec then .error (.yieldedShape g.carryOut.2 spec)
    else do
      let raw ← yieldSlots specs groups
      .ok (g.carryOut.1 ++ raw)
  | _, _ => .ok []

def yield_ (specs : List (List Bool)) (groups : List TaskGroup) :
    Except PipelineError (List Value) :=
  if groups.length ≠ specs.length then .error (.yieldedCount groups.length specs.length)
  else yieldSlots specs groups

end TaskGroup

/-! ## The two forms -/

section Forms

open TaskGroup

/-- New values of a block. -/
def fresh (next : ℕ) (here : Block) (count : ℕ) : List Value :=
  (List.range' next count).map fun name => ⟨name, here⟩

/-- What a body does with a step: it issues its transfers, in the group it is given. -/
def issue (next : ℕ) (here : Block) (step : Step) (waited : List Bool) : List Op × TaskGroup :=
  let tasks := fresh next here waited.length
  (tasks.zipIdx.map fun t => .configure t.1 step t.2, emitTransfers (tasks.zip waited))

/-- With an `int`, from a step on. -/
def unrolledFrom (body : Step → List Bool) (depth : ℕ) (here : Block) :
    ℕ → ℕ → ℕ → List TaskGroup → Except PipelineError (List Op)
  | 0, _, _, inFlight => finishAll here inFlight
  | count + 1, next, step, inFlight =>
    let issued := issue next here (.int step) (body (.int step))
    let inFlight := inFlight ++ [issued.2]
    let next := next + (body (.int step)).length
    if inFlight.length = depth then do
      let finished ← finishAll here (inFlight.take 1)
      let rest ← unrolledFrom body depth here count next (step + 1) (inFlight.drop 1)
      .ok (issued.1 ++ (finished ++ rest))
    else do
      let rest ← unrolledFrom body depth here count next (step + 1) inFlight
      .ok (issued.1 ++ rest)

/-- `_pipelined`, by the number of steps left under branches, `depth - 1 - len(in_flight)`. -/
def rolledFrom (body : Step → List Bool) :
    ℕ → ℕ → Block → List TaskGroup → Except PipelineError (List Op)
  | 0, next, here, [] => do
    let issued := issue next (.loop :: here) .index (body .index)
    let finished ← issued.2.finish (.loop :: here)
    .ok [.for_ 0 [] [] (issued.1 ++ finished) [] []]
  | 0, next, here, inFlight => do
    let raw := (inFlight.map fun g => g.carryOut.1).flatten
    let specs := inFlight.map fun g => g.carryOut.2
    let params := fresh next (.loop :: here) raw.length
    let results := fresh (next + raw.length) here raw.length
    let carried ← rewrap specs params
    let issued := issue (next + raw.length + raw.length) (.loop :: here) .index (body .index)
    let finished ← finishAll (.loop :: here) (carried.take 1)
    let yielded ← yield_ specs (carried.drop 1 ++ [issued.2])
    let last ← rewrap specs results
    let rest ← finishAll here last
    .ok (.for_ inFlight.length raw params (issued.1 ++ finished) yielded results :: rest)
  | remaining + 1, next, here, inFlight => do
    let step := inFlight.length
    let carried := inFlight.map carryOut
    let issued := issue next (.then_ :: here) (.int step) (body (.int step))
    let rebuilt ← carryInAll carried
    let rest ← rolledFrom body remaining (next + (body (.int step)).length) (.then_ :: here)
      (rebuilt ++ [issued.2])
    let left ← carryInAll carried
    let finished ← finishAll (.else_ :: here) left
    .ok [.if_ step (issued.1 ++ rest) finished]

inductive Count
  | int (n : ℤ)
  | staged

/-- `pipelined`, in a block: the operations emitted. -/
def pipelined (body : Step → List Bool) (n : Count) (depth : ℤ) (here : Block) :
    Except PipelineError (List Op) :=
  if depth < 1 then .error (.depth depth)
  else match n with
    | .int n => unrolledFrom body depth.toNat here n.toNat 0 0 []
    | .staged => rolledFrom body (depth.toNat - 1) 0 here []

end Forms

/-! ## Execution -/

/-- One iteration of a loop: what it carries on, and the events so far. -/
def iteration (n : ℤ) (params : List Value) (body : List Op) (yielded : List Value)
    (env : Value → Handle) (k : ℤ) (carried : List Handle × List Event) :
    List Handle × List Event :=
  let t := execAll n body ⟨bindAll params carried.1 env, k, carried.2⟩
  (yielded.map t.env, t.events)

theorem exec_for (n : ℤ) (lower : ℕ) (args params : List Value) (body : List Op)
    (yielded results : List Value) (s : State) :
    (Op.for_ lower args params body yielded results).exec n s =
      let last := iterate (iteration n params body yielded s.env) (n - lower).toNat lower
        (args.map s.env, s.events)
      { s with env := bindAll results last.1 s.env, events := last.2 } := rfl

theorem exec_if (n : ℤ) (above : ℕ) (thenOps elseOps : List Op) (s : State) :
    (Op.if_ above thenOps elseOps).exec n s =
      { s with
        events := (if above < n then execAll n thenOps s else execAll n elseOps s).events } := rfl

theorem exec_configure (n : ℤ) (result : Value) (step : Step) (number : ℕ) (s : State) :
    (Op.configure result step number).exec n s =
      { s with
        env := Function.update s.env result ⟨step.value s.index, number⟩
        events := s.events ++ [.issue ⟨step.value s.index, number⟩] } := rfl

theorem exec_await (n : ℤ) (task : Value) (s : State) :
    (Op.await task).exec n s = { s with events := s.events ++ [.await (s.env task)] } := rfl

theorem exec_free (n : ℤ) (task : Value) (s : State) :
    (Op.free task).exec n s = { s with events := s.events ++ [.free (s.env task)] } := rfl

@[simp] theorem execAll_nil (n : ℤ) (s : State) : execAll n [] s = s := rfl

@[simp] theorem execAll_cons (n : ℤ) (op : Op) (ops : List Op) (s : State) :
    execAll n (op :: ops) s = execAll n ops (op.exec n s) := rfl

theorem execAll_append (n : ℤ) (ops ops' : List Op) (s : State) :
    execAll n (ops ++ ops') s = execAll n ops' (execAll n ops s) := by
  induction ops generalizing s with
  | nil => rfl
  | cons op ops ih => rw [List.cons_append, execAll_cons, execAll_cons, ih]

theorem execAll_await (n : ℤ) (tasks : List Value) (s : State) :
    execAll n (tasks.map .await) s =
      { s with events := s.events ++ tasks.map fun v => .await (s.env v) } := by
  induction tasks generalizing s with
  | nil => simp
  | cons v tasks ih =>
    rw [List.map_cons, execAll_cons, ih]
    simp [exec_await]

theorem execAll_free (n : ℤ) (tasks : List Value) (s : State) :
    execAll n (tasks.map .free) s =
      { s with events := s.events ++ tasks.map fun v => .free (s.env v) } := by
  induction tasks generalizing s with
  | nil => simp
  | cons v tasks ih =>
    rw [List.map_cons, execAll_cons, ih]
    simp [exec_free]

theorem execAll_configure (n : ℤ) (step : Step) {tasks : List Value} (h : tasks.Nodup) (j : ℕ)
    (s : State) :
    let ops := (tasks.zipIdx j).map fun t => Op.configure t.1 step t.2
    let handles := (List.range' j tasks.length).map (Handle.mk (step.value s.index))
    (execAll n ops s).index = s.index ∧
      (execAll n ops s).events = s.events ++ handles.map .issue ∧
      tasks.map (execAll n ops s).env = handles ∧
      ∀ v ∉ tasks, (execAll n ops s).env v = s.env v := by
  induction tasks generalizing j s with
  | nil => simp
  | cons v tasks ih =>
    rw [List.nodup_cons] at h
    obtain ⟨hindex, hevents, henv, hothers⟩ := ih h.2 (j + 1)
      (Op.exec n (.configure v step j) s)
    simp only [List.zipIdx_cons, List.map_cons, execAll_cons, List.length_cons, List.range'_succ]
    refine ⟨hindex, ?_, ?_, fun w hw => ?_⟩
    · rw [hevents]
      simp [exec_configure]
    · rw [henv, hothers v h.1]
      simp [exec_configure]
    · rw [List.mem_cons, not_or] at hw
      rw [hothers w hw.2]
      exact Function.update_of_ne hw.1 _ _

/-- **The values have the handles** they were given. -/
theorem map_bindAll {values : List Value} {handles : List Handle} (h : values.Nodup)
    (hlength : values.length = handles.length) (env : Value → Handle) :
    values.map (bindAll values handles env) = handles := by
  induction values generalizing handles with
  | nil => exact (List.length_eq_zero_iff.1 hlength.symm).symm
  | cons v values ih =>
    cases handles with
    | nil => cases hlength
    | cons a handles =>
      rw [List.nodup_cons] at h
      rw [List.map_cons]
      congr 1
      · simp [bindAll]
      · refine (List.map_congr_left fun w hw => ?_).trans (ih h.2 (Nat.succ.inj hlength))
        have hne : (w == v) = false := beq_false_of_ne fun heq => h.1 (heq ▸ hw)
        rw [bindAll, bindAll, List.zip_cons_cons, List.lookup_cons, hne]

/-! ## Groups of some transfers -/

namespace TaskGroup

theorem emitTransfers_concat (ts : List (Value × Bool)) (t : Value × Bool) :
    emitTransfers (ts ++ [t]) = (emitTransfers ts).emitTransfer t.1 t.2 := by
  rw [emitTransfers, List.foldl_concat]
  rfl

theorem see_of_notMem {seen : List (Value × Bool)} {v : Value} (h : v ∉ seen.map Prod.fst) :
    see seen (.await, v) = seen ++ [(v, true)] ∧ see seen (.free, v) = seen ++ [(v, false)] := by
  have hany : seen.any (·.1 = v) = false := by
    rw [List.any_eq_false]
    rintro e he heq
    exact h (List.mem_map.2 ⟨e, he, of_decide_eq_true heq⟩)
  refine ⟨?_, by simp [see, hany]⟩
  have hkept : seen.map (fun e => if e.1 = v then (e.1, true) else e) = seen := by
    refine (List.map_congr_left fun e he => if_neg fun heq => ?_).trans (List.map_id _)
    exact h (List.mem_map.2 ⟨e, he, heq⟩)
  simp [see, hany, hkept]

theorem see_of_mem {seen : List (Value × Bool)} {v : Value} (h : v ∈ seen.map Prod.fst) :
    see seen (.free, v) = seen := by
  have hany : seen.any (·.1 = v) = true := by
    obtain ⟨e, he, heq⟩ := List.mem_map.1 h
    exact List.any_eq_true.2 ⟨e, he, decide_eq_true heq⟩
  simp [see, hany]

/-- **A group has its transfers**, each once, with its flag. -/
theorem transfers_emitTransfers {ts : List (Value × Bool)} (h : (ts.map Prod.fst).Nodup) :
    (emitTransfers ts).transfers = ts := by
  induction ts using List.reverseRecOn with
  | nil => rfl
  | append_singleton ts t ih =>
    rw [List.map_append, List.nodup_append] at h
    have hnew : t.1 ∉ ts.map Prod.fst := fun hmem => h.2.2 _ hmem _ (by simp) rfl
    rw [emitTransfers_concat, transfers, emitTransfer, List.foldl_append, ← transfers, ih h.1]
    obtain ⟨v, _ | _⟩ := t
    · exact (see_of_notMem hnew).2
    · have hsecond : see (ts ++ [(v, true)]) (.free, v) = ts ++ [(v, true)] :=
        see_of_mem (by simp)
      simp only [if_true, List.cons_append, List.nil_append, List.foldl_cons, List.foldl_nil,
        (see_of_notMem hnew).1, hsecond]

theorem filter_await_emitTransfers (ts : List (Value × Bool)) :
    ((emitTransfers ts).actions.filter fun a => a.1 = .await).map Prod.snd =
      (ts.filter Prod.snd).map Prod.fst := by
  induction ts using List.reverseRecOn with
  | nil => rfl
  | append_singleton ts t ih =>
    rw [emitTransfers_concat, emitTransfer, List.filter_append, List.map_append, ih,
      List.filter_append, List.map_append]
    obtain ⟨v, _ | _⟩ := t <;> simp

theorem filter_free_emitTransfers (ts : List (Value × Bool)) :
    ((emitTransfers ts).actions.filter fun a => a.1 = .free).map Prod.snd =
      ts.map Prod.fst := by
  induction ts using List.reverseRecOn with
  | nil => rfl
  | append_singleton ts t ih =>
    rw [emitTransfers_concat, emitTransfer, List.filter_append, List.map_append, ih,
      List.map_append]
    obtain ⟨v, _ | _⟩ := t <;> simp

theorem forM_eq_ok {ts : List (Value × Bool)} {here : Block}
    (h : ∀ t ∈ ts, checkReaches t.1.block here = .ok ()) :
    (ts.forM fun t => checkReaches t.1.block here) = .ok () := by
  induction ts with
  | nil => rfl
  | cons t ts ih =>
    rw [List.forall_mem_cons] at h
    have hcons : ((t :: ts).forM fun t => checkReaches t.1.block here) =
        checkReaches t.1.block here >>= fun _ => ts.forM fun t => checkReaches t.1.block here := rfl
    rw [hcons, h.1]
    exact ih h.2

theorem finish_emitTransfers {ts : List (Value × Bool)} {here : Block}
    (h : (ts.map Prod.fst).Nodup) (hreach : ∀ t ∈ ts, checkReaches t.1.block here = .ok ()) :
    (emitTransfers ts).finish here =
      .ok (((ts.filter Prod.snd).map Prod.fst).map .await ++ (ts.map Prod.fst).map .free) := by
  rw [finish, transfers_emitTransfers h, forM_eq_ok hreach, ← filter_await_emitTransfers,
    ← filter_free_emitTransfers, List.map_map, List.map_map]
  rfl

theorem checkReaches_self (here : Block) : checkReaches here here = .ok () := by
  cases here with
  | nil => rfl
  | cons region parent => exact if_pos rfl

theorem checkReaches_cons {issued here : Block} {region : Region} (hregion : region ≠ .loop)
    (h : checkReaches issued here = .ok ()) : checkReaches issued (region :: here) = .ok () := by
  rw [checkReaches, if_neg hregion]
  split
  · rfl
  · exact h

end TaskGroup

/-! ## The schedule -/

section Schedule

variable (waited : List Bool)

def stepHandles (k : ℤ) : List Handle := (List.range' 0 waited.length).map (Handle.mk k)

def issueEvents (k : ℤ) : List Event := (stepHandles waited k).map .issue

/-- A step is finished: its waited transfers are awaited, then all of them freed. -/
def finishEvents (k : ℤ) : List Event :=
  (((stepHandles waited k).zip waited).filter Prod.snd).map (fun t => .await t.1) ++
    (stepHandles waited k).map .free

/-- The steps from one on, with others in flight. -/
def schedule (depth : ℕ) : ℕ → ℤ → List ℤ → List Event
  | 0, _, inFlight => inFlight.flatMap (finishEvents waited)
  | count + 1, k, inFlight =>
    issueEvents waited k ++
      if (inFlight ++ [k]).length = depth then
        ((inFlight ++ [k]).take 1).flatMap (finishEvents waited) ++
          schedule depth count (k + 1) ((inFlight ++ [k]).drop 1)
      else schedule depth count (k + 1) (inFlight ++ [k])

def group (tasks : List Value) : TaskGroup := .emitTransfers (tasks.zip waited)

/-- Values of the transfers of a step, which can be finished in the block. -/
structure Ready (next : ℕ) (here : Block) (tasks : List Value) : Prop where
  length_eq : tasks.length = waited.length
  nodup : tasks.Nodup
  older : ∀ v ∈ tasks, v.name < next
  reaches : ∀ v ∈ tasks, TaskGroup.checkReaches v.block here = .ok ()

variable {waited} {next : ℕ} {here : Block} {tasks : List Value}

theorem Ready.mono {next' : ℕ} (h : Ready waited next here tasks) (hle : next ≤ next') :
    Ready waited next' here tasks :=
  ⟨h.length_eq, h.nodup, fun v hv => (h.older v hv).trans_le hle, h.reaches⟩

theorem Ready.inside {region : Region} (h : Ready waited next here tasks)
    (hregion : region ≠ .loop) : Ready waited next (region :: here) tasks :=
  ⟨h.length_eq, h.nodup, h.older, fun v hv => TaskGroup.checkReaches_cons hregion (h.reaches v hv)⟩

theorem Ready.map_fst (h : Ready waited next here tasks) :
    (tasks.zip waited).map Prod.fst = tasks := List.map_fst_zip h.length_eq.le

theorem Ready.carryOut (h : Ready waited next here tasks) :
    (group waited tasks).carryOut = (tasks, waited) := by
  rw [TaskGroup.carryOut, group, TaskGroup.transfers_emitTransfers (h.map_fst.symm ▸ h.nodup),
    h.map_fst, List.map_snd_zip h.length_eq.ge]

/-- **A group is finished.** -/
theorem Ready.finish (h : Ready waited next here tasks) :
    ∃ ops, (group waited tasks).finish here = .ok ops ∧ ∀ (n : ℤ) (s : State) (k : ℤ),
      tasks.map s.env = stepHandles waited k →
        execAll n ops s = { s with events := s.events ++ finishEvents waited k } := by
  refine ⟨_, TaskGroup.finish_emitTransfers (h.map_fst.symm ▸ h.nodup) fun t ht =>
    h.reaches _ (List.of_mem_zip ht).1, fun n s k hk => ?_⟩
  have hzip : (stepHandles waited k).zip waited =
      (tasks.zip waited).map (Prod.map s.env id) := by
    rw [← hk, List.zip_map_left]
  have hfree : (stepHandles waited k).map Event.free = tasks.map fun v => .free (s.env v) := by
    rw [← hk, List.map_map]
    rfl
  have hawait : (((stepHandles waited k).zip waited).filter Prod.snd).map
      (fun t => Event.await t.1) = (((tasks.zip waited).filter Prod.snd).map Prod.fst).map
        fun v => .await (s.env v) := by
    rw [hzip, List.filter_map, List.map_map, List.map_map]
    rfl
  rw [execAll_append, execAll_await, execAll_free, h.map_fst, finishEvents, hawait, hfree,
    List.append_assoc]

theorem finishAll_group {vss : List (List Value)} (h : ∀ vs ∈ vss, Ready waited next here vs) :
    ∃ ops, TaskGroup.finishAll here (vss.map (group waited)) = .ok ops ∧
      ∀ (n : ℤ) (s : State) (ks : List ℤ),
        vss.map (fun vs => vs.map s.env) = ks.map (stepHandles waited) →
          execAll n ops s =
            { s with events := s.events ++ ks.flatMap (finishEvents waited) } := by
  induction vss with
  | nil =>
    refine ⟨[], rfl, fun n s ks hks => ?_⟩
    obtain rfl : ks = [] := List.map_eq_nil_iff.1 hks.symm
    simp
  | cons vs vss ih =>
    rw [List.forall_mem_cons] at h
    obtain ⟨ops, hops, hexec⟩ := h.1.finish
    obtain ⟨rest, hrest, hexecs⟩ := ih h.2
    refine ⟨ops ++ rest, ?_, fun n s ks hks => ?_⟩
    · rw [List.map_cons, TaskGroup.finishAll, hops, hrest]
      rfl
    · cases ks with
      | nil => cases hks
      | cons k ks =>
        rw [List.map_cons, List.map_cons, List.cons.injEq] at hks
        rw [execAll_append, hexec n s k hks.1,
          hexecs n { s with events := s.events ++ finishEvents waited k } ks hks.2,
          List.flatMap_cons, List.append_assoc]

theorem carryInAll_carryOut {vss : List (List Value)}
    (h : ∀ vs ∈ vss, Ready waited next here vs) :
    TaskGroup.carryInAll ((vss.map (group waited)).map TaskGroup.carryOut) =
      .ok (vss.map (group waited)) := by
  induction vss with
  | nil => rfl
  | cons vs vss ih =>
    rw [List.forall_mem_cons] at h
    rw [List.map_cons, List.map_cons, TaskGroup.carryInAll, h.1.carryOut, TaskGroup.carryIn,
      if_neg (not_not.2 h.1.length_eq), ih h.2]
    rfl

/-- **A loop hands the groups back** over the values it carries. -/
theorem rewrap_flatten {vss : List (List Value)} (h : ∀ vs ∈ vss, vs.length = waited.length) :
    TaskGroup.rewrap (List.replicate vss.length waited) vss.flatten =
      .ok (vss.map (group waited)) := by
  induction vss with
  | nil => rfl
  | cons vs vss ih =>
    rw [List.forall_mem_cons] at h
    rw [List.length_cons, List.replicate_succ, List.flatten_cons, TaskGroup.rewrap,
      List.take_left' h.1, List.drop_left' h.1, TaskGroup.carryIn, if_neg (not_not.2 h.1), ih h.2]
    rfl

theorem yield_group {vss : List (List Value)} (h : ∀ vs ∈ vss, Ready waited next here vs) :
    TaskGroup.yield_ (List.replicate vss.length waited) (vss.map (group waited)) =
      .ok vss.flatten := by
  rw [TaskGroup.yield_, if_neg (by simp)]
  induction vss with
  | nil => rfl
  | cons vs vss ih =>
    rw [List.forall_mem_cons] at h
    rw [List.length_cons, List.replicate_succ, List.map_cons, TaskGroup.yieldSlots,
      h.1.carryOut, if_neg (not_not.2 rfl), ih h.2]
    rfl

/-! ## New values -/

theorem mem_fresh {count : ℕ} {v : Value} :
    v ∈ fresh next here count ↔ (next ≤ v.name ∧ v.name < next + count) ∧ v.block = here := by
  rw [fresh, List.mem_map]
  constructor
  · rintro ⟨name, hname, rfl⟩
    exact ⟨List.mem_range'_1.1 hname, rfl⟩
  · rintro ⟨hname, rfl⟩
    exact ⟨v.name, List.mem_range'_1.2 hname, rfl⟩

theorem nodup_fresh (next : ℕ) (here : Block) (count : ℕ) : (fresh next here count).Nodup :=
  (List.nodup_range' 1).map fun _ _ h => congrArg Value.name h

theorem length_fresh (next : ℕ) (here : Block) (count : ℕ) :
    (fresh next here count).length = count := by
  rw [fresh, List.length_map, List.length_range']

theorem ready_fresh (waited : List Bool) (next : ℕ) (here : Block) :
    Ready waited (next + waited.length) here (fresh next here waited.length) where
  length_eq := length_fresh next here waited.length
  nodup := nodup_fresh next here waited.length
  older _ hv := (mem_fresh.1 hv).1.2
  reaches _ hv := (mem_fresh.1 hv).2 ▸ TaskGroup.checkReaches_self _

def freshGroups (waited : List Bool) (next : ℕ) (here : Block) (count : ℕ) : List (List Value) :=
  (List.range count).map fun i => fresh (next + i * waited.length) here waited.length

theorem length_freshGroups (waited : List Bool) (next : ℕ) (here : Block) (count : ℕ) :
    (freshGroups waited next here count).length = count := by
  rw [freshGroups, List.length_map, List.length_range]

theorem flatten_freshGroups (waited : List Bool) (next : ℕ) (here : Block) (count : ℕ) :
    (freshGroups waited next here count).flatten = fresh next here (count * waited.length) := by
  induction count with
  | zero => simp [freshGroups, fresh]
  | succ count ih =>
    rw [freshGroups] at ih ⊢
    rw [List.range_succ, List.map_append, List.flatten_append, ih, Nat.succ_mul, fresh, fresh,
      ← List.range'_append_1, List.map_append]
    simp [fresh]

theorem ready_freshGroups (waited : List Bool) (next : ℕ) (here : Block) (count : ℕ) :
    ∀ vs ∈ freshGroups waited next here count,
      Ready waited (next + count * waited.length) here vs := by
  intro vs hvs
  obtain ⟨i, hi, rfl⟩ := List.mem_map.1 hvs
  refine (ready_fresh waited (next + i * waited.length) here).mono ?_
  have := Nat.mul_le_mul_right waited.length (Nat.succ_le_of_lt (List.mem_range.1 hi))
  rw [Nat.succ_mul] at this
  omega

theorem length_flatten {vss : List (List Value)} (h : ∀ vs ∈ vss, vs.length = waited.length) :
    vss.flatten.length = vss.length * waited.length := by
  induction vss with
  | nil => simp
  | cons vs vss ih =>
    rw [List.forall_mem_cons] at h
    rw [List.flatten_cons, List.length_append, ih h.2, h.1, List.length_cons, Nat.succ_mul,
      Nat.add_comm]

theorem map_bindAll_freshGroups (env : Value → Handle) {count : ℕ} {ks : List ℤ}
    (h : ks.length = count) :
    (freshGroups waited next here count).map (fun vs => vs.map (bindAll
        (fresh next here (count * waited.length)) (ks.map (stepHandles waited)).flatten env)) =
      ks.map (stepHandles waited) := by
  have hlength : (ks.map (stepHandles waited)).flatten.length = count * waited.length := by
    rw [List.length_flatten, List.map_map, ← h]
    simp [Function.comp_def, stepHandles]
  rw [List.eq_iff_flatten_eq, ← List.map_flatten, flatten_freshGroups,
    map_bindAll (nodup_fresh _ _ _) (by rw [length_fresh, hlength])]
  refine ⟨rfl, ?_⟩
  rw [List.map_map, List.map_map]
  have hks : ks.map (List.length ∘ stepHandles waited) = List.replicate count waited.length := by
    rw [← h, ← List.map_const']
    exact List.map_congr_left fun k _ => by simp [stepHandles]
  rw [hks, List.eq_replicate_iff, List.length_map, length_freshGroups]
  refine ⟨rfl, fun l hl => ?_⟩
  obtain ⟨vs, hvs, rfl⟩ := List.mem_map.1 hl
  rw [Function.comp_apply, List.length_map, (ready_freshGroups _ _ _ _ vs hvs).length_eq]

/-- **A step is issued.** -/
theorem execAll_issue (waited : List Bool) (next : ℕ) (here : Block) (step : Step) (n : ℤ)
    (s : State) :
    (execAll n (issue next here step waited).1 s).events =
        s.events ++ issueEvents waited (step.value s.index) ∧
      (fresh next here waited.length).map (execAll n (issue next here step waited).1 s).env =
        stepHandles waited (step.value s.index) ∧
      ∀ v : Value, v.name < next → (execAll n (issue next here step waited).1 s).env v =
        s.env v := by
  obtain ⟨-, hevents, henv, hothers⟩ :=
    execAll_configure n step (nodup_fresh next here waited.length) 0 s
  rw [length_fresh] at hevents henv
  refine ⟨hevents, henv, fun v hv => hothers v fun hmem => ?_⟩
  have := (mem_fresh.1 hmem).1.1
  omega

/-! ## The unrolled form -/

section Exec

variable {body : Step → List Bool}

theorem map_map_congr {vss : List (List Value)} {env env' : Value → Handle}
    (h : ∀ vs ∈ vss, Ready waited next here vs)
    (henv : ∀ v : Value, v.name < next → env' v = env v) :
    vss.map (fun vs => vs.map env') = vss.map fun vs => vs.map env :=
  List.map_congr_left fun vs hvs => List.map_congr_left fun v hv => henv v ((h vs hvs).older v hv)

/-- The groups in flight with a new one. -/
theorem ready_concat {vss : List (List Value)} (h : ∀ vs ∈ vss, Ready waited next here vs) :
    ∀ vs ∈ vss ++ [fresh next here waited.length], Ready waited (next + waited.length) here vs := by
  rw [List.forall_mem_append, List.forall_mem_singleton]
  exact ⟨fun vs hvs => (h vs hvs).mono (Nat.le_add_right _ _), ready_fresh waited next here⟩

/-- **With an `int`**, the sequence is the queue's. -/
theorem unrolled_exec (hbody : ∀ step, body step = waited) (depth : ℕ) (count : ℕ) :
    ∀ (next step : ℕ) (vss : List (List Value)), (∀ vs ∈ vss, Ready waited next here vs) →
      ∃ ops, unrolledFrom body depth here count next step (vss.map (group waited)) = .ok ops ∧
        ∀ (n : ℤ) (s : State) (ks : List ℤ),
          vss.map (fun vs => vs.map s.env) = ks.map (stepHandles waited) →
            (execAll n ops s).events = s.events ++ schedule waited depth count step ks := by
  induction count with
  | zero =>
    intro next step vss h
    obtain ⟨ops, hops, hexec⟩ := finishAll_group h
    exact ⟨ops, hops, fun n s ks hks => by rw [hexec n s ks hks]; rfl⟩
  | succ count ih =>
    intro next step vss h
    have hready := ready_concat h
    have hgroups : vss.map (group waited) ++ [(issue next here (.int step) waited).2] =
        (vss ++ [fresh next here waited.length]).map (group waited) := by
      rw [List.map_append]
      rfl
    -- the values of the steps in flight after the step is issued
    have hflight (n : ℤ) (s : State) (ks : List ℤ)
        (hks : vss.map (fun vs => vs.map s.env) = ks.map (stepHandles waited)) :
        (vss ++ [fresh next here waited.length]).map (fun vs => vs.map
            (execAll n (issue next here (.int step) waited).1 s).env) =
          (ks ++ [(step : ℤ)]).map (stepHandles waited) := by
      obtain ⟨-, henv, hothers⟩ := execAll_issue waited next here (.int step) n s
      rw [List.map_append, List.map_append, map_map_congr h hothers, hks, List.map_singleton, henv]
      rfl
    have hlength {n : ℤ} {s : State} {ks : List ℤ}
        (hks : vss.map (fun vs => vs.map s.env) = ks.map (stepHandles waited)) :
        (ks ++ [(step : ℤ)]).length = (vss ++ [fresh next here waited.length]).length := by
      have := congrArg List.length hks
      simp only [List.length_map] at this
      simp [this]
    rw [unrolledFrom]
    simp only [hbody, hgroups, List.length_map]
    split_ifs with hfull
    · obtain ⟨finished, hfinished, hexec⟩ :=
        finishAll_group fun vs hvs => hready vs (List.mem_of_mem_take hvs)
      obtain ⟨rest, hrest, hexecs⟩ := ih (next + waited.length) (step + 1)
        ((vss ++ [fresh next here waited.length]).drop 1)
        fun vs hvs => hready vs (List.mem_of_mem_drop hvs)
      rw [← List.map_take, ← List.map_drop, hfinished, hrest]
      refine ⟨_, rfl, fun n s ks hks => ?_⟩
      have hflight' := hflight n s ks hks
      rw [execAll_append, execAll_append, hexec n _ ((ks ++ [(step : ℤ)]).take 1)
        (by rw [List.map_take, List.map_take, hflight']),
        hexecs n _ ((ks ++ [(step : ℤ)]).drop 1) (by rw [List.map_drop, List.map_drop, hflight']),
        schedule, if_pos (by rw [@hlength n s ks hks, hfull]),
        (execAll_issue waited next here (.int step) n s).1]
      simp [Step.value]
    · obtain ⟨rest, hrest, hexecs⟩ := ih (next + waited.length) (step + 1)
        (vss ++ [fresh next here waited.length]) hready
      rw [hrest]
      refine ⟨_, rfl, fun n s ks hks => ?_⟩
      rw [execAll_append, hexecs n _ (ks ++ [(step : ℤ)]) (hflight n s ks hks), schedule,
        if_neg (by rw [@hlength n s ks hks]; exact hfull),
        (execAll_issue waited next here (.int step) n s).1]
      simp [Step.value]

/-! ## The rolled form -/

/-- **A loop that carries the steps in flight** runs the queue when it is full. -/
theorem iterate_schedule {depth : ℕ}
    {f : ℤ → List Handle × List Event → List Handle × List Event}
    (hf : ∀ (k : ℤ) (events : List Event) (q : List ℤ), q.length + 1 = depth →
      f k ((q.map (stepHandles waited)).flatten, events) =
        ((((q ++ [k]).drop 1).map (stepHandles waited)).flatten,
          events ++ (issueEvents waited k ++ ((q ++ [k]).take 1).flatMap (finishEvents waited))))
    (count : ℕ) : ∀ (k : ℤ) (events : List Event) (q : List ℤ), q.length + 1 = depth →
      ∃ (q' : List ℤ) (events' : List Event), q'.length + 1 = depth ∧
        iterate f count k ((q.map (stepHandles waited)).flatten, events) =
          ((q'.map (stepHandles waited)).flatten, events') ∧
        events' ++ q'.flatMap (finishEvents waited) =
          events ++ schedule waited depth count k q := by
  induction count with
  | zero => exact fun k events q hq => ⟨q, events, hq, rfl, rfl⟩
  | succ count ih =>
    intro k events q hq
    have hlength : (q ++ [k]).length = depth := by rw [List.length_append]; exact hq
    obtain ⟨q', events', hq', heq, hevents⟩ := ih (k + 1)
      (events ++ (issueEvents waited k ++ ((q ++ [k]).take 1).flatMap (finishEvents waited)))
      ((q ++ [k]).drop 1) (by rw [List.length_drop]; omega)
    refine ⟨q', events', hq', ?_, ?_⟩
    · rw [iterate, hf k events q hq, heq]
    · rw [hevents, schedule, if_pos hlength]
      simp only [List.append_assoc]

theorem rolled_depthOne (hbody : ∀ step, body step = waited) (next : ℕ) (here : Block) :
    ∃ ops, rolledFrom body 0 next here [] = .ok ops ∧ ∀ (n : ℤ) (s : State),
      (execAll n ops s).events = s.events ++ schedule waited 1 n.toNat 0 [] := by
  obtain ⟨finished, hfinished, hexec⟩ := (ready_fresh waited next (.loop :: here)).finish
  have hissued : (issue next (.loop :: here) .index waited).2.finish (.loop :: here) =
      .ok finished := hfinished
  rw [rolledFrom]
  simp only [hbody, hissued]
  refine ⟨_, rfl, fun n s => ?_⟩
  have hstep (k : ℤ) (events : List Event) (q : List ℤ) (hq : q.length + 1 = 1) :
      iteration n [] ((issue next (.loop :: here) .index waited).1 ++ finished) [] s.env k
          ((q.map (stepHandles waited)).flatten, events) =
        ((((q ++ [k]).drop 1).map (stepHandles waited)).flatten,
          events ++ (issueEvents waited k ++
            ((q ++ [k]).take 1).flatMap (finishEvents waited))) := by
    obtain rfl : q = [] := List.length_eq_zero_iff.1 (Nat.succ.inj hq)
    obtain ⟨hevents, henv, -⟩ := execAll_issue waited next (.loop :: here) .index n
      ⟨bindAll [] [] s.env, k, events⟩
    refine Prod.ext rfl ?_
    simp only [iteration, List.map_nil, List.flatten_nil]
    rw [execAll_append, hexec n _ k henv, hevents]
    simp [Step.value]
  obtain ⟨q', events', hq', heq, hevents⟩ :=
    @iterate_schedule waited 1 _ hstep (n - 0).toNat 0 s.events [] rfl
  obtain rfl : q' = [] := List.length_eq_zero_iff.1 (Nat.succ.inj hq')
  rw [execAll_cons, execAll_nil, exec_for]
  refine (congrArg Prod.snd heq).trans ?_
  simpa using hevents

/-- **The loop** carries the groups in flight. -/
theorem rolled_carried (hbody : ∀ step, body step = waited) {vss : List (List Value)}
    (hne : vss ≠ []) (h : ∀ vs ∈ vss, Ready waited next here vs) :
    ∃ ops, rolledFrom body 0 next here (vss.map (group waited)) = .ok ops ∧
      ∀ (n : ℤ) (s : State) (ks : List ℤ),
        vss.map (fun vs => vs.map s.env) = ks.map (stepHandles waited) →
          (execAll n ops s).events = s.events ++
            schedule waited (vss.length + 1) (n - vss.length).toNat vss.length ks := by
  have hpos := List.length_pos_iff.2 hne
  -- what the loop carries
  have hraw : ((vss.map (group waited)).map fun g => g.carryOut.1).flatten = vss.flatten := by
    rw [List.map_map, (List.map_congr_left fun vs hvs => congrArg Prod.fst (h vs hvs).carryOut :
      vss.map ((fun g => g.carryOut.1) ∘ group waited) = vss.map id), List.map_id]
  have hspecs : ((vss.map (group waited)).map fun g => g.carryOut.2) =
      List.replicate vss.length waited := by
    rw [List.map_map, ← List.map_const']
    exact List.map_congr_left fun vs hvs => congrArg Prod.snd (h vs hvs).carryOut
  have hlength : vss.flatten.length = vss.length * waited.length :=
    length_flatten fun vs hvs => (h vs hvs).length_eq
  generalize hm : vss.length = m at *
  generalize hw : m * waited.length = w at *
  -- the groups over the arguments of the body and over the results
  have hparams := ready_freshGroups waited next (.loop :: here) m
  have hresults := ready_freshGroups waited (next + w) here m
  rw [hw] at hparams hresults
  have hrewrap (next : ℕ) (here : Block) : TaskGroup.rewrap (List.replicate m waited)
      (fresh next here w) = .ok ((freshGroups waited next here m).map (group waited)) := by
    rw [← hw, ← flatten_freshGroups, ← rewrap_flatten fun vs hvs =>
      (ready_freshGroups waited next here m vs hvs).length_eq, length_freshGroups]
  obtain ⟨finished, hfinished, hexecFinished⟩ := finishAll_group fun vs hvs =>
    hparams vs (List.mem_of_mem_take (i := 1) hvs)
  obtain ⟨rest, hrest, hexecRest⟩ := finishAll_group hresults
  have hyield : TaskGroup.yield_ (List.replicate m waited)
      (((freshGroups waited next (.loop :: here) m).map (group waited)).drop 1 ++
        [(issue (next + w + w) (.loop :: here) .index waited).2]) =
      .ok ((freshGroups waited next (.loop :: here) m).drop 1 ++
        [fresh (next + w + w) (.loop :: here) waited.length]).flatten := by
    have hready : ∀ vs ∈ (freshGroups waited next (.loop :: here) m).drop 1 ++
        [fresh (next + w + w) (.loop :: here) waited.length],
        Ready waited (next + w + w + waited.length) (.loop :: here) vs :=
      ready_concat fun vs hvs => (hparams vs (List.mem_of_mem_drop hvs)).mono (by omega)
    have hcount : ((freshGroups waited next (.loop :: here) m).drop 1 ++
        [fresh (next + w + w) (.loop :: here) waited.length]).length = m := by
      rw [List.length_append, List.length_drop, length_freshGroups, List.length_singleton]
      omega
    rw [← yield_group hready, hcount, List.map_append, List.map_drop]
    rfl
  obtain ⟨g, groups, hgroups⟩ : ∃ g groups, vss.map (group waited) = g :: groups := by
    cases vss with
    | nil => exact absurd rfl hne
    | cons vs vss => exact ⟨_, _, rfl⟩
  have hgroupsLength : (g :: groups).length = m := by rw [← hgroups, List.length_map, hm]
  rw [hgroups] at hraw hspecs ⊢
  rw [rolledFrom]
  · simp only [hraw, hspecs, hlength, hbody, hrewrap, ← List.map_take, hfinished, hyield, hrest,
      hgroupsLength, bind, Except.bind]
    refine ⟨_, rfl, fun n s ks hks => ?_⟩
    have hksLength : ks.length = m := by
      have := congrArg List.length hks
      rw [List.length_map, List.length_map, hm] at this
      exact this.symm
    have hstep (k : ℤ) (events : List Event) (q : List ℤ) (hq : q.length + 1 = m + 1) :
        iteration n (fresh next (.loop :: here) w)
            ((issue (next + w + w) (.loop :: here) .index waited).1 ++ finished)
            ((freshGroups waited next (.loop :: here) m).drop 1 ++
              [fresh (next + w + w) (.loop :: here) waited.length]).flatten s.env k
            ((q.map (stepHandles waited)).flatten, events) =
          ((((q ++ [k]).drop 1).map (stepHandles waited)).flatten,
            events ++ (issueEvents waited k ++
              ((q ++ [k]).take 1).flatMap (finishEvents waited))) := by
      have hq : q.length = m := Nat.succ.inj hq
      obtain ⟨hevents, henv, hothers⟩ := execAll_issue waited (next + w + w) (.loop :: here)
        .index n ⟨bindAll (fresh next (.loop :: here) w) (q.map (stepHandles waited)).flatten
          s.env, k, events⟩
      have hvals := map_map_congr (fun vs hvs => (hparams vs hvs).mono (by omega)) hothers
      have hbound := @map_bindAll_freshGroups waited next (.loop :: here) s.env m q hq
      rw [hw] at hbound
      rw [hbound] at hvals
      rw [iteration, execAll_append, hexecFinished n _ (q.take 1)
        (by rw [List.map_take, List.map_take, hvals])]
      refine Prod.ext ?_ ?_
      · simp only
        rw [List.map_flatten, List.map_append, List.map_drop, hvals, List.map_singleton, henv,
          List.drop_append_of_le_length (by omega), List.map_append, List.map_drop]
        rfl
      · simp only
        rw [hevents, List.take_append_of_le_length (by omega), List.append_assoc]
        rfl
    obtain ⟨q', events', hq', heq, hevents⟩ :=
      @iterate_schedule waited (m + 1) _ hstep (n - m).toNat m s.events ks (by omega)
    have hargs : vss.flatten.map s.env = (ks.map (stepHandles waited)).flatten := by
      rw [List.map_flatten, hks]
    have hbound := @map_bindAll_freshGroups waited (next + w) here s.env m q' (Nat.succ.inj hq')
    rw [hw] at hbound
    rw [execAll_cons, exec_for, hargs, heq, hexecRest n _ q' hbound]
    exact hevents
  · exact fun hnil => List.cons_ne_nil _ _ hnil

/-- **The rolled form** runs the queue, from a branch on. -/
theorem rolled_exec (hbody : ∀ step, body step = waited) (remaining : ℕ) :
    ∀ (next : ℕ) (here : Block) (vss : List (List Value)),
      (∀ vs ∈ vss, Ready waited next here vs) →
        ∃ ops, rolledFrom body remaining next here (vss.map (group waited)) = .ok ops ∧
          ∀ (n : ℤ) (s : State) (ks : List ℤ), vss.length = 0 ∨ (vss.length : ℤ) ≤ n →
            vss.map (fun vs => vs.map s.env) = ks.map (stepHandles waited) →
              (execAll n ops s).events = s.events ++ schedule waited (vss.length + remaining + 1)
                (n - vss.length).toNat vss.length ks := by
  induction remaining with
  | zero =>
    intro next here vss h
    rcases eq_or_ne vss [] with rfl | hne
    · obtain ⟨ops, hops, hexec⟩ := rolled_depthOne hbody next here
      refine ⟨ops, hops, fun n s ks _ hks => ?_⟩
      obtain rfl : ks = [] := List.map_eq_nil_iff.1 hks.symm
      simpa using hexec n s
    · obtain ⟨ops, hops, hexec⟩ := rolled_carried hbody hne h
      exact ⟨ops, hops, fun n s ks _ hks => hexec n s ks hks⟩
  | succ remaining ih =>
    intro next here vss h
    have hinside (region : Region) (hregion : region ≠ .loop) :
        ∀ vs ∈ vss, Ready waited next (region :: here) vs :=
      fun vs hvs => (h vs hvs).inside hregion
    obtain ⟨rest, hrest, hexecRest⟩ := ih (next + waited.length) (.then_ :: here)
      (vss ++ [fresh next (.then_ :: here) waited.length])
      (ready_concat (hinside .then_ (by decide)))
    obtain ⟨finished, hfinished, hexecFinished⟩ := finishAll_group (hinside .else_ (by decide))
    have hrebuilt : rolledFrom body remaining (next + waited.length) (.then_ :: here)
        (vss.map (group waited) ++ [(issue next (.then_ :: here) (.int vss.length) waited).2]) =
        .ok rest := by
      rw [← hrest, List.map_append]
      rfl
    rw [rolledFrom]
    simp only [carryInAll_carryOut h, hbody, List.length_map, hrebuilt, hfinished, bind,
      Except.bind]
    refine ⟨_, rfl, fun n s ks hn hks => ?_⟩
    have hksLength : ks.length = vss.length := by
      have := congrArg List.length hks
      simpa using this.symm
    simp only [execAll_cons, execAll_nil, exec_if]
    split_ifs with hmore
    · obtain ⟨hevents, henv, hothers⟩ :=
        execAll_issue waited next (.then_ :: here) (.int vss.length) n s
      have hcount : (n - vss.length).toNat = (n - (vss.length + 1 : ℕ)).toNat + 1 := by omega
      rw [execAll_append, hexecRest n _ (ks ++ [(vss.length : ℤ)]) (.inr ?_) ?_, hevents, hcount,
        schedule, if_neg ?_]
      · simp [Step.value, Nat.add_assoc, Nat.add_comm 1]
      · simp [hksLength]
      · simp only [List.length_append, List.length_singleton]
        omega
      · rw [List.map_append, List.map_append, map_map_congr (hinside .then_ (by decide)) hothers,
          hks, List.map_singleton, henv]
        rfl
    · have hcount : (n - vss.length).toNat = 0 := by omega
      rw [hexecFinished n s ks hks, hcount]
      rfl

end Exec

end Schedule

/-- **Both forms** issue, await and free the same transfers, each of the same step, in the same
order. -/
theorem pipelined_rolled_eq_unrolled (body : Step → List Bool) (waited : List Bool)
    (hbody : ∀ step, body step = waited) (depth : ℤ) (hdepth : 1 ≤ depth) (here : Block) (n : ℤ)
    (s : State) : ∃ rolled unrolled, pipelined body .staged depth here = .ok rolled ∧
      pipelined body (.int n) depth here = .ok unrolled ∧
        (execAll n rolled s).events = (execAll n unrolled s).events := by
  obtain ⟨rolled, hrolled, hexecRolled⟩ :=
    rolled_exec hbody (depth.toNat - 1) 0 here [] (by simp)
  obtain ⟨unrolled, hunrolled, hexecUnrolled⟩ :=
    @unrolled_exec waited here body hbody depth.toNat n.toNat 0 0 [] (by simp)
  refine ⟨rolled, unrolled, ?_, ?_, ?_⟩
  · rw [pipelined, if_neg (by omega)]
    exact hrolled
  · rw [pipelined, if_neg (by omega)]
    exact hunrolled
  · rw [hexecRolled n s [] (.inl rfl) rfl, hexecUnrolled n s [] rfl]
    have hdepth' : ([] : List (List Value)).length + (depth.toNat - 1) + 1 = depth.toNat := by
      rw [List.length_nil]
      omega
    rw [hdepth']
    simp

/-- A fill and a waited drain at every step, two steps in flight. -/
theorem fillDrain_rolled_eq_unrolled :
    ∃ rolled unrolled, pipelined (fun _ => [false, true]) .staged 2 [] = .ok rolled ∧
      pipelined (fun _ => [false, true]) (.int 3) 2 [] = .ok unrolled ∧
        (execAll 3 rolled ⟨fun _ => ⟨0, 0⟩, 0, []⟩).events =
          (execAll 3 unrolled ⟨fun _ => ⟨0, 0⟩, 0, []⟩).events :=
  pipelined_rolled_eq_unrolled (fun _ => [false, true]) [false, true] (fun _ => rfl) 2 (by decide)
    [] 3 ⟨fun _ => ⟨0, 0⟩, 0, []⟩

end MlirAie.Iron
