import Mathlib

/-!
# Core accesses to an objectFIFO

A core acquires and releases the objects of a pool. Where locks count, an acquire names every object
the core wants to hold and takes tokens for those it does not hold yet; a counter per core and
endpoint says how many it holds. On targets with binary locks no segment has a lock.

* `run`: their execution;
* **`balanced_acquire_iff`**: when an acquire keeps the balance;
* **`run_balanced`**: every run of accesses that do keeps it.
-/

namespace MlirAie.Fifo

/-! ## Lowering -/

inductive LockAction where
  | acquireGreaterEqual
  | release
  deriving DecidableEq

/-- The locks of a segment: of its free objects and of its full ones. -/
structure Segment where
  produceLock : Option String
  consumeLock : Option String

structure Pool where
  depth : ℕ
  repeatCount : Option ℕ

def Pool.repeats (pool : Pool) : ℕ := pool.repeatCount.getD 1

/-- A core's end of a pool, with the segments it selects. -/
structure CoreEndpoint where
  pool : Pool
  drains : Bool
  segments : List Segment

/-- The lock of a segment the core toggles: a filler waits on free objects and hands back full ones,
a drainer the reverse. -/
def CoreEndpoint.lockFor (endpoint : CoreEndpoint) (action : LockAction) (segment : Segment) :
    Option String :=
  let acquiring : Bool := action = .acquireGreaterEqual
  if acquiring ≠ endpoint.drains then segment.produceLock else segment.consumeLock

def segmentLocksFor (endpoint : CoreEndpoint) (action : LockAction) : List (ℕ × String) :=
  endpoint.segments.zipIdx.filterMap fun segment =>
    (endpoint.lockFor action segment.1).map fun lock => (segment.2, lock)

/-- A 32-bit value, read as signed. -/
def i32 (x : ℤ) : ℤ := x.bmod (2 ^ 32)

/-- The values computed from the counter as it is before the access. -/
inductive Value where
  | constant (x : ℤ)
  | loadHeld
  | addi (a b : Value)
  | subi (a b : Value)
  | maxsi (a b : Value)
  | muli (a b : Value)

inductive Stmt where
  | useLock (segment : ℕ) (lock : String) (action : LockAction) (amount : Value)
  | storeHeld (value : Value)

def useLocks (endpoint : CoreEndpoint) (action : LockAction) (amount : Value) : List Stmt :=
  (segmentLocksFor endpoint action).map fun lock => .useLock lock.1 lock.2 action amount

def lowerRelease (endpoint : CoreEndpoint) (size : ℕ) : List Stmt :=
  let amount : Value := .constant (i32 (size * endpoint.pool.repeats))
  useLocks endpoint .release amount ++ [.storeHeld (.subi .loadHeld amount)]

def acquireDelta (endpoint : CoreEndpoint) (wanted : ℕ) : Value :=
  let delta : Value := .maxsi (.subi (.constant (i32 wanted)) .loadHeld) (.constant 0)
  if endpoint.pool.repeats > 1 then .muli delta (.constant (i32 endpoint.pool.repeats)) else delta

/-- An acquire of more objects than the pool has is an error. -/
def lowerAcquire (endpoint : CoreEndpoint) (wanted : ℕ) : Option (List Stmt) :=
  if wanted > endpoint.pool.depth then none
  else
    let delta := acquireDelta endpoint wanted
    some (useLocks endpoint .acquireGreaterEqual delta ++ [.storeHeld (.addi .loadHeld delta)])

inductive Access where
  | acquire (count : ℕ)
  | release (count : ℕ)

def lower (endpoint : CoreEndpoint) : Access → Option (List Stmt)
  | .acquire count => lowerAcquire endpoint count
  | .release count => some (lowerRelease endpoint count)

/-! ## Execution -/

/-- The counter, and the tokens taken from and given to the locks of each segment. -/
structure CoreState where
  held : ℤ
  taken : ℕ → ℤ
  given : ℕ → ℤ

def CoreState.start : CoreState := ⟨0, fun _ => 0, fun _ => 0⟩

def CoreState.net (state : CoreState) (i : ℕ) : ℤ := state.taken i - state.given i

@[grind =] def Value.eval (held : ℤ) : Value → ℤ
  | constant x => x
  | loadHeld => held
  | addi a b => i32 (a.eval held + b.eval held)
  | subi a b => i32 (a.eval held - b.eval held)
  | maxsi a b => max (a.eval held) (b.eval held)
  | muli a b => i32 (a.eval held * b.eval held)

def Stmt.exec (state : CoreState) : Stmt → CoreState
  | useLock segment _ .acquireGreaterEqual amount =>
    { state with
      taken := Function.update state.taken segment
        (state.taken segment + amount.eval state.held) }
  | useLock segment _ .release amount =>
    { state with
      given := Function.update state.given segment
        (state.given segment + amount.eval state.held) }
  | storeHeld value => { state with held := value.eval state.held }

def execAll (state : CoreState) (stmts : List Stmt) : CoreState := stmts.foldl Stmt.exec state

/-- The accesses of a core in the order it executes them, as far as they can be lowered. -/
def run (endpoint : CoreEndpoint) (state : CoreState) : List Access → Option CoreState
  | [] => some state
  | access :: accesses =>
    match lower endpoint access with
    | none => none
    | some stmts => run endpoint (execAll state stmts) accesses

/-! ## The objects held -/

/-- The objects a core holds after an access: an acquire names the whole window. -/
@[grind =] def Access.held (objects : ℕ) : Access → ℕ
  | acquire count => max objects count
  | release count => objects - count

def heldAfter (objects : ℕ) (accesses : List Access) : ℕ := accesses.foldl Access.held objects

/-- On each selected segment with locks, what was taken and not given back is `repeat` times the
number of objects held. -/
def Balanced (endpoint : CoreEndpoint) (state : CoreState) (objects : ℕ) : Prop :=
  ∀ i segment, endpoint.segments[i]? = some segment → segment.produceLock.isSome = true →
    segment.consumeLock.isSome = true →
      state.net i = endpoint.pool.repeats * objects

/-- What an access is to meet. A release gives back objects that are held. An acquire grows the
window from nothing, or not at all, unless every object is worth one token. -/
def Access.Keeps (endpoint : CoreEndpoint) (objects : ℕ) : Access → Prop
  | acquire count => count ≤ endpoint.pool.depth ∧ 0 < endpoint.pool.repeats ∧
      (count : ℤ) * endpoint.pool.repeats < 2 ^ 31 ∧
      (endpoint.pool.repeats = 1 ∨ objects = 0 ∨ count ≤ objects)
  | release count => count ≤ objects

/-- Every access of the run meets it, given the objects held at that point. -/
def AllKeep (endpoint : CoreEndpoint) : ℕ → List Access → Prop
  | _, [] => True
  | objects, access :: accesses =>
    access.Keeps endpoint objects ∧ AllKeep endpoint (access.held objects) accesses

/-! ## The locks of a segment -/

theorem segmentLocksFor_fst (endpoint : CoreEndpoint) (action : LockAction) :
    (segmentLocksFor endpoint action).map Prod.fst =
      (endpoint.segments.zipIdx.filter fun segment =>
        (endpoint.lockFor action segment.1).isSome).map Prod.snd := by
  unfold segmentLocksFor
  induction endpoint.segments.zipIdx with
  | nil => rfl
  | cons segment segments ih =>
    cases hlock : endpoint.lockFor action segment.1 with
    | none => simp [hlock, ih]
    | some lock => simp [hlock, ih]

theorem segmentLocksFor_nodup (endpoint : CoreEndpoint) (action : LockAction) :
    ((segmentLocksFor endpoint action).map Prod.fst).Nodup := by
  rw [segmentLocksFor_fst]
  refine List.Nodup.sublist (List.filter_sublist.map Prod.snd) ?_
  rw [List.zipIdx_map_snd]
  exact List.nodup_range'

theorem mem_segmentLocksFor {endpoint : CoreEndpoint} {action : LockAction} {i : ℕ}
    {segment : Segment} (hi : endpoint.segments[i]? = some segment)
    (hlock : (endpoint.lockFor action segment).isSome = true) :
    i ∈ (segmentLocksFor endpoint action).map Prod.fst := by
  rw [segmentLocksFor_fst]
  refine List.mem_map.2 ⟨(segment, i), List.mem_filter.2 ⟨?_, hlock⟩, rfl⟩
  exact List.mem_zipIdx_iff_getElem?.2 hi

theorem lockFor_isSome (endpoint : CoreEndpoint) (action : LockAction) {segment : Segment}
    (hproduce : segment.produceLock.isSome = true) (hconsume : segment.consumeLock.isSome = true) :
    (endpoint.lockFor action segment).isSome = true := by
  unfold CoreEndpoint.lockFor
  simp only
  split_ifs
  · exact hproduce
  · exact hconsume

/-! ## What the operations do -/

theorem execAll_append (state : CoreState) (first second : List Stmt) :
    execAll state (first ++ second) = execAll (execAll state first) second :=
  List.foldl_append

@[grind =] def LockAction.sign : LockAction → ℤ
  | acquireGreaterEqual => 1
  | release => -1

theorem exec_useLock (state : CoreState) (segment : ℕ) (lock : String) (action : LockAction)
    (amount : Value) :
    (Stmt.exec state (.useLock segment lock action amount)).held = state.held ∧
      ∀ i, (Stmt.exec state (.useLock segment lock action amount)).net i =
        state.net i + if i = segment then action.sign * amount.eval state.held else 0 := by
  cases action with
  | acquireGreaterEqual =>
    refine ⟨rfl, fun i => ?_⟩
    simp only [Stmt.exec, CoreState.net, Function.update_apply, LockAction.sign]
    split_ifs with h
    · rw [h]
      ring
    · ring
  | release =>
    refine ⟨rfl, fun i => ?_⟩
    simp only [Stmt.exec, CoreState.net, Function.update_apply, LockAction.sign]
    split_ifs with h
    · rw [h]
      ring
    · ring

theorem execAll_locks (action : LockAction) (amount : Value) {locks : List (ℕ × String)}
    (hnodup : (locks.map Prod.fst).Nodup) (state : CoreState) :
    (execAll state (locks.map fun lock => .useLock lock.1 lock.2 action amount)).held =
        state.held ∧
      ∀ i, (execAll state (locks.map fun lock => .useLock lock.1 lock.2 action amount)).net i =
        state.net i +
          if i ∈ locks.map Prod.fst then action.sign * amount.eval state.held else 0 := by
  induction locks generalizing state with
  | nil => exact ⟨rfl, fun i => (add_zero _).symm⟩
  | cons lock locks ih =>
    rw [List.map_cons, List.nodup_cons] at hnodup
    obtain ⟨hheld, hnet⟩ := exec_useLock state lock.1 lock.2 action amount
    obtain ⟨ihheld, ihnet⟩ := ih hnodup.2 (Stmt.exec state (.useLock lock.1 lock.2 action amount))
    refine ⟨ihheld.trans hheld, fun i => (ihnet i).trans ?_⟩
    rw [hnet, hheld]
    by_cases hi : i = lock.1
    · subst hi
      simp [hnodup.1]
    · rw [if_neg hi, add_zero, List.map_cons]
      simp only [List.mem_cons, hi, false_or]

theorem execAll_access (endpoint : CoreEndpoint) (action : LockAction) (amount next : Value)
    (state : CoreState) :
    let after := execAll state (useLocks endpoint action amount ++ [.storeHeld next])
    after.held = next.eval state.held ∧
      ∀ i segment, endpoint.segments[i]? = some segment → segment.produceLock.isSome = true →
        segment.consumeLock.isSome = true →
          after.net i = state.net i + action.sign * amount.eval state.held := by
  obtain ⟨hheld, hnet⟩ := execAll_locks action amount
    (segmentLocksFor_nodup endpoint action) state
  rw [execAll_append]
  refine ⟨congrArg (fun held => next.eval held) hheld, fun i segment hi hproduce hconsume => ?_⟩
  have hmem := mem_segmentLocksFor hi (lockFor_isSome endpoint action hproduce hconsume)
  have hi := hnet i
  rw [if_pos hmem] at hi
  exact hi

/-! ## 32-bit values -/

theorem i32_eq {x : ℤ} (h₀ : -2 ^ 31 ≤ x) (h : x < 2 ^ 31) : i32 x = x :=
  Int.bmod_eq_of_le (by norm_num; omega) (by norm_num; omega)

theorem i32_lt (x : ℤ) : i32 x < 2 ^ 31 := by
  have := @Int.bmod_lt x (2 ^ 32) (by norm_num)
  norm_num at this ⊢
  exact this

/-! ## One access -/

/-- The counter holds the tokens of the objects held, and the balance is kept. -/
structure Tracks (endpoint : CoreEndpoint) (state : CoreState) (objects : ℕ) : Prop where
  held : state.held = endpoint.pool.repeats * objects
  fits : (endpoint.pool.repeats : ℤ) * objects < 2 ^ 31
  balanced : Balanced endpoint state objects

theorem Tracks.start (endpoint : CoreEndpoint) : Tracks endpoint .start 0 where
  held := by simp [CoreState.start]
  fits := by simp
  balanced := fun i segment _ _ _ => by simp [CoreState.start, CoreState.net]

theorem Tracks.release {endpoint : CoreEndpoint} {state : CoreState} {objects count : ℕ}
    (h : Tracks endpoint state objects) (hcount : count ≤ objects) :
    Tracks endpoint (execAll state (lowerRelease endpoint count)) (objects - count) := by
  have hfits := h.fits
  have hle : (endpoint.pool.repeats : ℤ) * (count : ℤ) ≤ endpoint.pool.repeats * objects :=
    mul_le_mul_of_nonneg_left (by exact_mod_cast hcount) (Int.natCast_nonneg _)
  have hpos : 0 ≤ (endpoint.pool.repeats : ℤ) * (count : ℤ) := by positivity
  have hcast : ((objects - count : ℕ) : ℤ) = objects - count := by omega
  have hamount : i32 ((count : ℤ) * endpoint.pool.repeats) = endpoint.pool.repeats * count := by
    rw [mul_comm]
    exact i32_eq (by omega) (by omega)
  obtain ⟨hheld, hnet⟩ := execAll_access endpoint .release
    (.constant (i32 (count * endpoint.pool.repeats)))
    (.subi .loadHeld (.constant (i32 (count * endpoint.pool.repeats)))) state
  constructor
  · refine hheld.trans ?_
    simp only [Value.eval, hamount, h.held, hcast, mul_sub]
    exact i32_eq (by omega) (by omega)
  · rw [hcast, mul_sub]
    omega
  · intro i segment hi hproduce hconsume
    refine (hnet i segment hi hproduce hconsume).trans ?_
    rw [h.balanced i segment hi hproduce hconsume, hcast]
    simp only [Value.eval, hamount, LockAction.sign]
    ring

theorem Tracks.acquireDelta_eval {endpoint : CoreEndpoint} {state : CoreState} {objects : ℕ}
    (h : Tracks endpoint state objects) {count : ℕ} (hcount : (count : ℤ) < 2 ^ 31) :
    (acquireDelta endpoint count).eval state.held =
      if endpoint.pool.repeats > 1 then
        i32 (max ((count : ℤ) - endpoint.pool.repeats * objects) 0 * endpoint.pool.repeats)
      else max ((count : ℤ) - endpoint.pool.repeats * objects) 0 := by
  have hfits := h.fits
  have hpos : 0 ≤ (endpoint.pool.repeats : ℤ) * (objects : ℤ) := by positivity
  have hshort : i32 (i32 count - endpoint.pool.repeats * objects) =
      count - endpoint.pool.repeats * objects := by
    rw [i32_eq (by omega) hcount]
    exact i32_eq (by omega) (by omega)
  unfold acquireDelta
  split_ifs with hmany
  · simp only [Value.eval, h.held, hshort]
    exact Int.mul_bmod_bmod
  · simp only [Value.eval, h.held, hshort]

theorem wanted_of_le {r objects count : ℕ} (h : count ≤ objects) :
    (r : ℤ) * (max objects count : ℕ) - r * objects = 0 := by
  rw [Nat.max_eq_left h, sub_self]

theorem shortfall_of_le {r objects count : ℕ} (hr : 0 < r) (h : count ≤ objects) :
    max ((count : ℤ) - r * objects) 0 = 0 := by
  have hle : objects ≤ r * objects := Nat.le_mul_of_pos_left objects hr
  have hcast : (objects : ℤ) ≤ r * objects := by exact_mod_cast hle
  omega

theorem acquireDelta_eq_iff {r objects count : ℕ} (hr : 0 < r) (hcount : (count : ℤ) < 2 ^ 31)
    (hfits : (r : ℤ) * objects < 2 ^ 31) :
    ((if r > 1 then i32 (max ((count : ℤ) - r * objects) 0 * r)
        else max ((count : ℤ) - r * objects) 0) = r * (max objects count : ℕ) - r * objects) ↔
      ((count : ℤ) * r < 2 ^ 31 ∧ (r = 1 ∨ objects = 0 ∨ count ≤ objects)) := by
  by_cases hone : r = 1
  · subst hone
    refine iff_of_true ?_ ⟨by omega, .inl rfl⟩
    rw [if_neg (lt_irrefl 1)]
    push_cast
    omega
  · rw [if_pos (by omega : r > 1)]
    by_cases hle : count ≤ objects
    · have hmul : (count : ℤ) * r ≤ r * objects := by
        rw [mul_comm]
        exact_mod_cast Nat.mul_le_mul_left r hle
      refine iff_of_true ?_ ⟨by omega, .inr (.inr hle)⟩
      rw [shortfall_of_le hr hle, wanted_of_le hle, zero_mul]
      rfl
    · have hmax : ((max objects count : ℕ) : ℤ) = count := by omega
      by_cases hzero : objects = 0
      · subst hzero
        have hwanted : max ((count : ℤ) - r * (0 : ℕ)) 0 * r = count * r := by simp
        rw [hmax, hwanted, Nat.cast_zero, mul_zero, sub_zero, mul_comm (r : ℤ)]
        refine ⟨fun h => ⟨?_, .inr (.inl rfl)⟩, fun h => ?_⟩
        · rw [← h]
          exact i32_lt _
        · have hpos : 0 ≤ (count : ℤ) * r := by positivity
          exact i32_eq (by omega) h.1
      · refine iff_of_false (fun h => ?_) (by omega)
        have hmore : (objects : ℤ) < r * objects := by
          have := Nat.mul_le_mul_right objects (by omega : 2 ≤ r)
          have hnat : objects < r * objects := by omega
          exact_mod_cast hnat
        have hshort : max ((count : ℤ) - r * objects) 0 < count - objects := by omega
        have hless : max ((count : ℤ) - r * objects) 0 * r < r * count - r * objects := by
          have hmul := mul_lt_mul_of_pos_right hshort (Int.natCast_pos.2 hr)
          rw [← mul_sub, mul_comm (r : ℤ) (count - objects)]
          exact hmul
        have hlt := i32_lt (max ((count : ℤ) - r * objects) 0 * r)
        have hnonneg : 0 ≤ max ((count : ℤ) - r * objects) 0 * r := by positivity
        rw [hmax] at h
        rw [h] at hlt
        rw [i32_eq (by omega) (by omega)] at h
        omega

theorem lowerAcquire_eq_some {endpoint : CoreEndpoint} {count : ℕ} {stmts : List Stmt}
    (h : lowerAcquire endpoint count = some stmts) :
    count ≤ endpoint.pool.depth ∧
      useLocks endpoint .acquireGreaterEqual (acquireDelta endpoint count) ++
        [.storeHeld (.addi .loadHeld (acquireDelta endpoint count))] = stmts := by
  unfold lowerAcquire at h
  split_ifs at h with hdepth
  exact ⟨not_lt.1 hdepth, Option.some.inj h⟩

/-- **An acquire keeps the balance** exactly if it meets its condition. -/
theorem balanced_acquire_iff {endpoint : CoreEndpoint} {state : CoreState} {objects count : ℕ}
    (h : Tracks endpoint state objects) (hrepeats : 0 < endpoint.pool.repeats)
    (hcount : (count : ℤ) < 2 ^ 31)
    {stmts : List Stmt} (hstmts : lowerAcquire endpoint count = some stmts) {i : ℕ}
    {segment : Segment} (hi : endpoint.segments[i]? = some segment)
    (hproduce : segment.produceLock.isSome = true) (hconsume : segment.consumeLock.isSome = true) :
    Balanced endpoint (execAll state stmts) (max objects count) ↔
      (Access.acquire count).Keeps endpoint objects := by
  obtain ⟨hdepth, rfl⟩ := lowerAcquire_eq_some hstmts
  obtain ⟨-, hnet⟩ := execAll_access endpoint .acquireGreaterEqual (acquireDelta endpoint count)
    (.addi .loadHeld (acquireDelta endpoint count)) state
  have hdelta : Balanced endpoint (execAll state (useLocks endpoint .acquireGreaterEqual
      (acquireDelta endpoint count) ++ [.storeHeld (.addi .loadHeld (acquireDelta endpoint count))]))
      (max objects count) ↔ (acquireDelta endpoint count).eval state.held =
        endpoint.pool.repeats * (max objects count : ℕ) - endpoint.pool.repeats * objects := by
    constructor
    · intro hbalanced
      have hafter := hbalanced i segment hi hproduce hconsume
      rw [hnet i segment hi hproduce hconsume, h.balanced i segment hi hproduce hconsume,
        LockAction.sign, one_mul] at hafter
      omega
    · intro heq j segment' hj hproduce' hconsume'
      rw [hnet j segment' hj hproduce' hconsume', h.balanced j segment' hj hproduce' hconsume',
        heq, LockAction.sign]
      ring
  rw [hdelta, h.acquireDelta_eval hcount, acquireDelta_eq_iff hrepeats hcount h.fits]
  exact ⟨fun hcond => ⟨hdepth, hrepeats, hcond⟩, fun hkeeps => hkeeps.2.2⟩

theorem Tracks.acquire {endpoint : CoreEndpoint} {state : CoreState} {objects count : ℕ}
    (h : Tracks endpoint state objects) (hkeeps : (Access.acquire count).Keeps endpoint objects)
    {stmts : List Stmt} (hstmts : lowerAcquire endpoint count = some stmts) :
    Tracks endpoint (execAll state stmts) (max objects count) := by
  obtain ⟨-, hrepeats, hcond⟩ := hkeeps
  obtain ⟨hdepth, rfl⟩ := lowerAcquire_eq_some hstmts
  have hcount : (count : ℤ) < 2 ^ 31 := by
    have hle : (count : ℤ) ≤ count * endpoint.pool.repeats := by
      exact_mod_cast Nat.le_mul_of_pos_right count hrepeats
    omega
  have hdelta := (h.acquireDelta_eval hcount).trans
    ((acquireDelta_eq_iff hrepeats hcount h.fits).2 hcond)
  have hfits : (endpoint.pool.repeats : ℤ) * (max objects count : ℕ) < 2 ^ 31 := by
    rcases max_choice objects count with hmax | hmax <;> rw [hmax]
    · exact h.fits
    · rw [mul_comm]
      exact hcond.1
  have hpos : 0 ≤ (endpoint.pool.repeats : ℤ) * (max objects count : ℕ) := by positivity
  obtain ⟨hheld, hnet⟩ := execAll_access endpoint .acquireGreaterEqual (acquireDelta endpoint count)
    (.addi .loadHeld (acquireDelta endpoint count)) state
  refine ⟨?_, hfits, fun i segment hi hproduce hconsume => ?_⟩
  · refine hheld.trans ?_
    rw [Value.eval, hdelta, Value.eval, h.held, add_sub_cancel]
    exact i32_eq (by omega) hfits
  · refine (hnet i segment hi hproduce hconsume).trans ?_
    rw [hdelta, h.balanced i segment hi hproduce hconsume, LockAction.sign]
    ring

/-! ## Runs -/

theorem run_cons_eq_some {endpoint : CoreEndpoint} {state final : CoreState} {access : Access}
    {accesses : List Access} (h : run endpoint state (access :: accesses) = some final) :
    ∃ stmts, lower endpoint access = some stmts ∧
      run endpoint (execAll state stmts) accesses = some final := by
  rw [run] at h
  split at h
  · cases h
  · rename_i stmts hstmts
    exact ⟨stmts, hstmts, h⟩

/-- A run of accesses that keep the balance keeps track of the objects held. -/
theorem Tracks.run {endpoint : CoreEndpoint} {state final : CoreState} {objects : ℕ}
    {accesses : List Access} (h : Tracks endpoint state objects)
    (hkeep : AllKeep endpoint objects accesses)
    (hrun : run endpoint state accesses = some final) :
    Tracks endpoint final (heldAfter objects accesses) := by
  induction accesses generalizing state objects with
  | nil =>
    cases hrun
    exact h
  | cons access accesses ih =>
    obtain ⟨stmts, hstmts, hrun⟩ := run_cons_eq_some hrun
    obtain ⟨hfirst, hrest⟩ := hkeep
    refine ih ?_ hrest hrun
    cases access with
    | acquire count => exact h.acquire hfirst hstmts
    | release count =>
      cases hstmts
      exact h.release hfirst

/-- **Every run keeps the balance** whose acquires each grow the window from nothing or not at all,
unless every object is worth one token. -/
theorem run_balanced {endpoint : CoreEndpoint} {accesses : List Access} {final : CoreState}
    (hkeep : AllKeep endpoint 0 accesses) (hrun : run endpoint .start accesses = some final) :
    Balanced endpoint final (heldAfter 0 accesses) :=
  ((Tracks.start endpoint).run hkeep hrun).balanced

/-! ## Two runs -/

/-- A filler of a pool of two objects, each worth two tokens. -/
def doubled : CoreEndpoint where
  pool := ⟨2, some 2⟩
  drains := false
  segments := [⟨some "produce", some "consume"⟩]

theorem doubled_steady : Balanced doubled (execAll .start
    (useLocks doubled .acquireGreaterEqual (acquireDelta doubled 2) ++
      [.storeHeld (.addi .loadHeld (acquireDelta doubled 2))])) 2 :=
  @run_balanced doubled [.acquire 2] _ ⟨⟨by decide, by decide, by decide, .inr (.inl rfl)⟩, trivial⟩
    rfl

theorem doubled_acquire : Balanced doubled (execAll .start
    (useLocks doubled .acquireGreaterEqual (acquireDelta doubled 1) ++
      [.storeHeld (.addi .loadHeld (acquireDelta doubled 1))])) 1 ↔
    (Access.acquire 1).Keeps doubled 0 :=
  @balanced_acquire_iff doubled .start 0 1 (.start doubled) (by decide) (by decide) _ rfl 0 _ rfl
    rfl rfl

/-- **A window that grows** from one object to two: the two tokens of the second are not taken. -/
theorem doubled_growing :
    ∃ final, run doubled .start [.acquire 1, .acquire 2] = some final ∧
      heldAfter 0 [.acquire 1, .acquire 2] = 2 ∧ final.net 0 = 2 ∧
        ¬ Balanced doubled final (heldAfter 0 [.acquire 1, .acquire 2]) := by
  refine ⟨_, rfl, rfl, by decide, fun h => ?_⟩
  have := h 0 _ rfl rfl rfl
  revert this
  decide

end MlirAie.Fifo
