import MlirAie.Lib.Lists
import MlirAie.Placer.Device

/-!
# The locks of a buffer descriptor

A descriptor has one field for the lock it acquires and one for the lock it releases. On a mem tile
a field counts through the locks of the west neighbour, of the tile, and of the east neighbour.

* `gatherLockFields`: the fields of the lowering of tasks;
* `readLock`: the lock that a field means;
* **`lockFields_name_iff`**: the fields name the locks exactly if those are on one tile.
-/

namespace MlirAie.BdLocks

open MlirAie.Lib
open MlirAie.Placer (TileID TargetModel Arch isInternal isWest isEast isNorth isSouth)

/-! ## Targets -/

section Target

variable (tm : TargetModel)

def getNumLocks (type : AIETileType) : ℕ :=
  match tm.arch with
  | .AIE1 => 16
  | .AIE2 => if type = .MemTile then 64 else 16

def getMaxLockValue : BitVec 32 :=
  match tm.arch with
  | .AIE1 => 1
  | .AIE2 => 0x3F

def isCoreTile (t : TileID) : Bool := tm.getTileType t = .CoreTile

def isMemWest (src dst : TileID) : Bool :=
  match tm.arch with
  | .AIE1 => (src.row % 2 = 0 && isInternal src dst) || (src.row % 2 ≠ 0 && isWest src dst)
  | .AIE2 => isWest src dst

def isMemEast (src dst : TileID) : Bool :=
  match tm.arch with
  | .AIE1 => (src.row % 2 ≠ 0 && isInternal src dst) || (src.row % 2 = 0 && isEast src dst)
  | .AIE2 => isInternal src dst

def getLockLocalBaseIndex (tile lock : TileID) : Option ℕ :=
  let n := getNumLocks tm (tm.getTileType tile)
  if isCoreTile tm tile && isSouth tile lock then some 0
  else if isCoreTile tm tile && isMemWest tm tile lock then some n
  else if isCoreTile tm tile && isNorth tile lock then some (n * 2)
  else if isCoreTile tm tile && isMemEast tm tile lock then some (n * 3)
  else if tm.isMemTile tile && isWest tile lock then some 0
  else if tm.isMemTile tile && isInternal tile lock then some n
  else if tm.isMemTile tile && isEast tile lock then some (n * 2)
  else none

/-- **The lock that a field of a descriptor means** on the tile. -/
def readLock (tile : TileID) (field : ℕ) : Option (TileID × ℕ) :=
  let n := getNumLocks tm (tm.getTileType tile)
  if tm.isMemTile tile then
    if field < n then some (⟨tile.col - 1, tile.row⟩, field)
    else if field < n * 2 then some (tile, field - n)
    else if field < n * 3 then some (⟨tile.col + 1, tile.row⟩, field - n * 2)
    else none
  else if field < n then some (tile, field)
  else none

/-- A descriptor of the tile can use the locks of the other tile. -/
def Reachable (tile lock : TileID) : Prop :=
  if tm.isMemTile tile then
    isWest tile lock = true ∨ isInternal tile lock = true ∨ isEast tile lock = true
  else lock = tile

end Target

/-! ## Blocks -/

structure Lock where
  tile : TileID
  lockID : Option ℕ
  deriving DecidableEq

/-- `LockOp::verify`. -/
def Lock.Verified (tm : TargetModel) (lock : Lock) : Prop :=
  ∀ id, lock.lockID = some id → id < getNumLocks tm (tm.getTileType lock.tile)

inductive LockAction where
  | Acquire
  | AcquireGreaterEqual
  | Release
  deriving DecidableEq

/-- The value operand: a constant, or what it is at run time. -/
inductive LockValue where
  | constant (v : BitVec 32)
  | runtime (v : BitVec 32)
  deriving DecidableEq

def LockValue.get : LockValue → BitVec 32
  | constant v => v
  | runtime v => v

structure UseLock where
  action : LockAction
  lock : Lock
  value : LockValue
  acqEn : Bool
  deriving DecidableEq

namespace UseLock

def release (op : UseLock) : Bool := op.action = .Release

def acquireGE (op : UseLock) : Bool := op.action = .AcquireGreaterEqual

def getConstantValue (op : UseLock) : Except String (BitVec 32) :=
  match op.value with
  | .constant v => .ok v
  | .runtime _ => .error
      "expected the lock value to be a compile-time constant (defined by an arith.constant)."

def getLockIDValue (op : UseLock) : Except String ℕ :=
  match op.lock.lockID with
  | some id => .ok id
  | none => .error "Lock has no ID value"

/-- The value that a field holds for the operation. -/
def encoded (op : UseLock) : BitVec 32 := if op.acquireGE then -op.value.get else op.value.get

end UseLock

/-- The lock operations of a block that were seen. -/
structure Pair where
  acquire : Option UseLock
  release : Option UseLock
  deriving DecidableEq

def rejectBdLocks (outOfOrder : Bool) : String :=
  "does not fit its buffer descriptor, which has one lock-acquire field and one lock-release " ++
    "field; a buffer descriptor block uses either no lock or one use_lock(acquire) and one " ++
    "use_lock(release)" ++ if outOfOrder then ", or a use_lock(release) alone when out-of-order"
    else ""

def Pair.take (outOfOrder : Bool) (p : Pair) (op : UseLock) : Except String Pair :=
  if op.release then
    if p.release.isSome then .error (rejectBdLocks outOfOrder) else .ok { p with release := op }
  else
    if p.acquire.isSome then .error (rejectBdLocks outOfOrder) else .ok { p with acquire := op }

def verifyBdLockPair (block : List UseLock) (outOfOrder : Bool) : Except String Pair := do
  let p ← block.foldlM (Pair.take outOfOrder) ⟨none, none⟩
  if p.acquire.isNone && p.release.isNone then .ok p
  else if p.release.isSome && (p.acquire.isSome || outOfOrder) then .ok p
  else .error (rejectBdLocks outOfOrder)

/-! ## The static configuration -/

/-- `XAie_Lock`. -/
structure XAieLock where
  lockId : ℕ
  lockVal : BitVec 32
  deriving DecidableEq

/-- What is set with `SetLock`. -/
structure LockFields where
  acqLock : XAieLock
  relLock : XAieLock
  acqEn : Bool
  relEn : Bool
  deriving DecidableEq

/-- The variables of the loop over the lock operations. -/
structure Seen where
  acqValue : Option (BitVec 32) := none
  relValue : Option (BitVec 32) := none
  acqLockId : Option ℕ := none
  relLockId : Option ℕ := none
  acqEn : Bool := false
  lock : Option Lock := none

def Seen.see (s : Seen) (op : UseLock) : Except String Seen :=
  match op.action with
  | .Acquire | .AcquireGreaterEqual => do
    let id ← op.getLockIDValue
    let v ← op.getConstantValue
    .ok { s with
      lock := some op.lock
      acqEn := op.acqEn
      acqLockId := some id
      acqValue := some (if op.acquireGE then -v else v) }
  | .Release => do
    let id ← op.getLockIDValue
    let v ← op.getConstantValue
    .ok { s with lock := some op.lock, relLockId := some id, relValue := some v }

/-- On a mem tile both numbers move by the base of the lock that was seen last. -/
def Seen.rebase (tm : TargetModel) (tile : TileID) (s : Seen) : Seen :=
  match s.lock with
  | none => s
  | some lock =>
    if tm.isMemTile tile then
      match getLockLocalBaseIndex tm tile lock.tile with
      | none => s
      | some base =>
        { s with acqLockId := s.acqLockId.map (· + base), relLockId := s.relLockId.map (· + base) }
    else s

/-- A descriptor that only releases points its acquire field at the lock it releases. -/
def Seen.borrow (outOfOrder : Bool) (s : Seen) : Seen :=
  if outOfOrder && s.acqLockId.isNone then
    { s with acqLockId := s.relLockId, acqValue := some 0 }
  else s

def Seen.toFields (s : Seen) : Except String LockFields :=
  match s.acqLockId, s.acqValue, s.relLockId, s.relValue with
  | some acqId, some acqVal, some relId, some relVal =>
    .ok ⟨⟨acqId, acqVal⟩, ⟨relId, relVal⟩, s.acqEn, false⟩
  | _, _, _, _ => .error "lock values must be resolved before init"

def configureLocksInBdBlock (tm : TargetModel) (block : List UseLock) (tile : TileID)
    (outOfOrder : Bool) : Except String LockFields := do
  let _ ← verifyBdLockPair block outOfOrder
  let s ← block.foldlM Seen.see {}
  ((s.rebase tm tile).borrow outOfOrder).toFields

/-! ## The lowering of tasks -/

/-- The lock fields of `BdTemplateFields`. -/
structure BdTemplateFields where
  lock_rel_val : BitVec 32 := 0
  lock_rel_id : ℕ := 0
  lock_acq_enable : Bool := false
  lock_acq_val : BitVec 32 := 0
  lock_acq_id : ℕ := 0
  deriving DecidableEq

/-- A value of the run is checked before it is encoded. -/
def lockValue (tm : TargetModel) (op : UseLock) : Except String (BitVec 32) :=
  match op.value with
  | .constant c => .ok (if op.acquireGE then -c else c)
  | .runtime v =>
    let minValue : BitVec 32 := if op.acquireGE then 1 else 0
    let maxValue := getMaxLockValue tm
    if v - minValue ≤ maxValue - minValue then .ok (if op.acquireGE then 0 - v else v)
    else .error ("a runtime lock value must be in [" ++ toString minValue.toNat ++ ":" ++
      toString maxValue.toNat ++ "]")

def setAcquire (tm : TargetModel) (op : UseLock) (f : BdTemplateFields) :
    Except String BdTemplateFields :=
  match op.lock.lockID with
  | none => .ok f
  | some id => do
    let v ← lockValue tm op
    .ok { f with lock_acq_id := id, lock_acq_val := v, lock_acq_enable := true }

def setRelease (tm : TargetModel) (op : UseLock) (f : BdTemplateFields) :
    Except String BdTemplateFields :=
  match op.lock.lockID with
  | none => .ok f
  | some id => do
    let v ← lockValue tm op
    .ok { f with lock_rel_id := id, lock_rel_val := v }

/-- On a mem tile both numbers move by the base of the lock that is released. -/
def rebaseFields (tm : TargetModel) (tile : TileID) (acquire : Option UseLock) (release : UseLock)
    (f : BdTemplateFields) : BdTemplateFields :=
  if tm.isMemTile tile then
    match getLockLocalBaseIndex tm tile release.lock.tile with
    | none => f
    | some base =>
      { f with
        lock_acq_id := if acquire.any (·.lock.lockID.isSome) then f.lock_acq_id + base
          else f.lock_acq_id
        lock_rel_id := if release.lock.lockID.isSome then f.lock_rel_id + base
          else f.lock_rel_id }
  else f

/-- The lock fields of `gatherBdTemplateFields`. -/
def gatherLockFields (tm : TargetModel) (block : List UseLock) (tile : TileID)
    (outOfOrder : Bool) : Except String BdTemplateFields := do
  let p ← verifyBdLockPair block outOfOrder
  match p.release with
  | none => .ok {}
  | some release =>
    let f ← match p.acquire with
      | none => .ok {}
      | some acquire => setAcquire tm acquire {}
    let f ← setRelease tm release f
    .ok (rebaseFields tm tile p.acquire release f)

/-! ## The local lock map -/

def moved (tm : TargetModel) (tile lock : TileID) (id : ℕ) : ℕ :=
  if tm.isMemTile tile then id + (getLockLocalBaseIndex tm tile lock).getD 0 else id

section Target

variable {tm : TargetModel} {tile t : TileID}

theorem getNumLocks_le (hmem : tm.isMemTile tile = true) (t : TileID) :
    getNumLocks tm (tm.getTileType t) ≤ getNumLocks tm (tm.getTileType tile) := by
  have htype : tm.getTileType tile = .MemTile := of_decide_eq_true hmem
  rw [htype]
  unfold getNumLocks
  cases tm.arch with
  | AIE1 => exact le_rfl
  | AIE2 =>
    by_cases h : tm.getTileType t = .MemTile
    · simp [h]
    · simp [h]

theorem isCoreTile_eq_false (hmem : tm.isMemTile tile = true) : isCoreTile tm tile = false := by
  have htype : tm.getTileType tile = .MemTile := of_decide_eq_true hmem
  simp [isCoreTile, htype]

theorem getLockLocalBaseIndex_cases (hmem : tm.isMemTile tile = true)
    (ht : Reachable tm tile t) :
    t = ⟨tile.col - 1, tile.row⟩ ∧ getLockLocalBaseIndex tm tile t = some 0 ∨
    t = tile ∧ getLockLocalBaseIndex tm tile t = some (getNumLocks tm (tm.getTileType tile)) ∨
    t = ⟨tile.col + 1, tile.row⟩ ∧
      getLockLocalBaseIndex tm tile t = some (getNumLocks tm (tm.getTileType tile) * 2) := by
  obtain ⟨col, row⟩ := tile
  obtain ⟨col', row'⟩ := t
  rw [Reachable, if_pos hmem] at ht
  unfold getLockLocalBaseIndex
  rw [isCoreTile_eq_false hmem, hmem]
  simp only [isWest, isInternal, isEast, decide_eq_true_eq, Bool.false_and, Bool.true_and,
    Bool.false_eq_true, if_false] at ht ⊢
  rcases ht with ⟨hcol, rfl⟩ | ⟨rfl, rfl⟩ | ⟨hcol, rfl⟩
  · left
    exact ⟨by rw [hcol]; simp, if_pos ⟨hcol, rfl⟩⟩
  · right; left
    refine ⟨rfl, ?_⟩
    rw [if_neg (by omega), if_pos ⟨rfl, rfl⟩]
  · right; right
    refine ⟨by rw [hcol]; simp, ?_⟩
    rw [if_neg (by omega), if_neg (by omega), if_pos ⟨hcol, rfl⟩]

/-- **A moved field means the lock exactly if it was moved for the lock's own tile.** -/
theorem readLock_moved_iff {other : TileID} {id : ℕ} (ht : Reachable tm tile t)
    (hother : Reachable tm tile other) (hid : id < getNumLocks tm (tm.getTileType t)) :
    readLock tm tile (moved tm tile other id) = some (t, id) ↔
      (tm.isMemTile tile = true → t = other) := by
  by_cases hmem : tm.isMemTile tile = true
  · have hlt := lt_of_lt_of_le hid (getNumLocks_le hmem t)
    have htile := getLockLocalBaseIndex_cases hmem ht
    have hbase := getLockLocalBaseIndex_cases hmem hother
    unfold readLock moved
    rw [if_pos hmem, if_pos hmem]
    generalize getNumLocks tm (tm.getTileType tile) = n at *
    obtain ⟨col, row⟩ := tile
    rcases hbase with ⟨rfl, hbase⟩ | ⟨rfl, hbase⟩ | ⟨rfl, hbase⟩
    · rw [hbase, Option.getD_some, if_pos (by omega)]
      simp [hmem, eq_comm]
    · rw [hbase, Option.getD_some, if_neg (by omega), if_pos (by omega)]
      simp [hmem, eq_comm]
    · rw [hbase, Option.getD_some, if_neg (by omega), if_neg (by omega), if_pos (by omega)]
      simp [hmem, eq_comm]
  · rw [Reachable, if_neg hmem] at ht
    subst ht
    unfold readLock moved
    rw [if_neg hmem, if_neg hmem, if_pos hid]
    exact iff_of_true rfl fun h => absurd h hmem

end Target

/-! ## What the fields mean -/

/-- The field names the lock of the operation, and holds its value. -/
def NamesLock (tm : TargetModel) (tile : TileID) (op : UseLock) (field : XAieLock) : Prop :=
  (∃ id, op.lock.lockID = some id ∧ readLock tm tile field.lockId = some (op.lock.tile, id)) ∧
    field.lockVal = op.encoded

/-- Each lock operation of the block has its field. -/
def FieldsName (tm : TargetModel) (tile : TileID) (block : List UseLock)
    (acqLock relLock : XAieLock) : Prop :=
  ∀ op ∈ block, NamesLock tm tile op (if op.release then relLock else acqLock)

/-- **Where the fields are right**: all the locks of a descriptor of a mem tile are on one tile. -/
def OneWindow (tm : TargetModel) (tile : TileID) (block : List UseLock) : Prop :=
  tm.isMemTile tile = true → ∀ a ∈ block, ∀ r ∈ block, a.lock.tile = r.lock.tile

theorem fieldsName_iff {tm : TargetModel} {tile : TileID} {block : List UseLock}
    {acqLock relLock : XAieLock} {last : UseLock} (hlast : last ∈ block)
    (hreach : ∀ op ∈ block, Reachable tm tile op.lock.tile)
    (hverified : ∀ op ∈ block, op.lock.Verified tm)
    (hfields : ∀ op ∈ block, ∀ id, op.lock.lockID = some id →
      (if op.release then relLock else acqLock) = ⟨moved tm tile last.lock.tile id, op.encoded⟩) :
    FieldsName tm tile block acqLock relLock ↔
      (∀ op ∈ block, op.lock.lockID.isSome) ∧ OneWindow tm tile block := by
  have hnames : ∀ op ∈ block, ∀ id, op.lock.lockID = some id →
      (readLock tm tile (if op.release then relLock else acqLock).lockId =
        some (op.lock.tile, id) ↔ (tm.isMemTile tile = true → op.lock.tile = last.lock.tile)) := by
    intro op hop id hid
    rw [hfields op hop id hid]
    exact readLock_moved_iff (hreach op hop) (hreach last hlast) (hverified op hop id hid)
  constructor
  · intro h
    refine ⟨fun op hop => ?_, fun hmem a ha r hr => ?_⟩
    · obtain ⟨⟨id, hid, -⟩, -⟩ := h op hop
      rw [hid]
      rfl
    · obtain ⟨⟨ida, hida, hreada⟩, -⟩ := h a ha
      obtain ⟨⟨idr, hidr, hreadr⟩, -⟩ := h r hr
      rw [(hnames a ha ida hida).1 hreada hmem, (hnames r hr idr hidr).1 hreadr hmem]
  · rintro ⟨hsome, hone⟩ op hop
    obtain ⟨id, hid⟩ := Option.isSome_iff_exists.1 (hsome op hop)
    refine ⟨⟨id, hid, (hnames op hop id hid).2 fun hmem => hone hmem op hop last hlast⟩, ?_⟩
    rw [hfields op hop id hid]

/-! ## The fields that are set -/

theorem verifyBdLockPair_cases {block : List UseLock} {outOfOrder : Bool} {p : Pair}
    (h : verifyBdLockPair block outOfOrder = .ok p) :
    block = [] ∧ p = ⟨none, none⟩ ∨
    (∃ r, block = [r] ∧ r.release = true ∧ outOfOrder = true ∧ p = ⟨none, some r⟩) ∨
    ∃ a r, a.release = false ∧ r.release = true ∧ (block = [a, r] ∨ block = [r, a]) ∧
      p = ⟨some a, some r⟩ := by
  unfold verifyBdLockPair at h
  rcases block with _ | ⟨x, _ | ⟨y, _ | ⟨z, rest⟩⟩⟩
  · exact Or.inl ⟨rfl, (Except.ok.inj h).symm⟩
  · cases hx : x.release with
    | true =>
      cases outOfOrder with
      | true =>
        simp [Pair.take, hx, bind, Except.bind, pure, Except.pure] at h
        exact Or.inr (Or.inl ⟨x, rfl, hx, rfl, h.symm⟩)
      | false => simp [Pair.take, hx, bind, Except.bind, pure, Except.pure] at h
    | false => simp [Pair.take, hx, bind, Except.bind, pure, Except.pure] at h
  · cases hx : x.release <;> cases hy : y.release
    · simp [Pair.take, hx, hy, bind, Except.bind] at h
    · simp [Pair.take, hx, hy, bind, Except.bind, pure, Except.pure] at h
      exact Or.inr (Or.inr ⟨x, y, hx, hy, Or.inl rfl, h.symm⟩)
    · simp [Pair.take, hx, hy, bind, Except.bind, pure, Except.pure] at h
      exact Or.inr (Or.inr ⟨y, x, hy, hx, Or.inr rfl, h.symm⟩)
    · simp [Pair.take, hx, hy, bind, Except.bind] at h
  · -- two slots cannot take three operations
    cases hx : x.release <;> cases hy : y.release <;> cases hz : z.release <;>
      simp [Pair.take, hx, hy, hz, bind, Except.bind] at h

theorem see_ok {s s' : Seen} {op : UseLock} (h : s.see op = .ok s') :
    ∃ id v, op.lock.lockID = some id ∧ op.value = .constant v ∧
      s' = if op.release then
          { s with lock := some op.lock, relLockId := some id, relValue := some op.encoded }
        else
          { s with
            lock := some op.lock
            acqEn := op.acqEn
            acqLockId := some id
            acqValue := some op.encoded } := by
  obtain ⟨action, ⟨t, lockID⟩, value, acqEn⟩ := op
  unfold Seen.see UseLock.getLockIDValue UseLock.getConstantValue at h
  cases lockID with
  | none => cases action <;> cases h
  | some id =>
    cases value with
    | runtime v => cases action <;> cases h
    | constant v =>
      refine ⟨id, v, rfl, rfl, ?_⟩
      cases action <;> exact (Except.ok.inj h).symm

theorem rebase_eq (tm : TargetModel) (tile : TileID) {s : Seen} {lock : Lock}
    (h : s.lock = some lock) :
    s.rebase tm tile = { s with
      acqLockId := s.acqLockId.map (moved tm tile lock.tile)
      relLockId := s.relLockId.map (moved tm tile lock.tile) } := by
  obtain ⟨acqValue, relValue, acqLockId, relLockId, acqEn, lock'⟩ := s
  cases h
  unfold Seen.rebase moved
  by_cases hmem : tm.isMemTile tile = true
  · simp only [hmem, if_true]
    cases getLockLocalBaseIndex tm tile lock.tile with
    | none => simp
    | some base => rfl
  · simp [hmem]

theorem configureLocksInBdBlock_ok {tm : TargetModel} {block : List UseLock} {tile : TileID}
    {outOfOrder : Bool} {f : LockFields}
    (h : configureLocksInBdBlock tm block tile outOfOrder = .ok f) :
    ∃ last ∈ block, ∀ op ∈ block, ∃ id, op.lock.lockID = some id ∧
      (if op.release then f.relLock else f.acqLock) =
        ⟨moved tm tile last.lock.tile id, op.encoded⟩ := by
  unfold configureLocksInBdBlock at h
  obtain ⟨p, hp, h⟩ := bind_eq_ok.1 h
  obtain ⟨s, hs, h⟩ := bind_eq_ok.1 h
  rcases verifyBdLockPair_cases hp with ⟨rfl, -⟩ | ⟨r, rfl, hr, rfl, -⟩ |
    ⟨a, r, ha, hr, rfl | rfl, -⟩
  · cases hs
    simp [Seen.rebase, Seen.borrow, Seen.toFields] at h
    cases outOfOrder <;> simp at h
  · simp only [List.foldlM_cons, List.foldlM_nil, bind_pure] at hs
    obtain ⟨id, v, hid, -, rfl⟩ := see_ok hs
    rw [if_pos hr, rebase_eq tm tile rfl] at h
    cases h
    refine ⟨r, List.mem_singleton_self r, List.forall_mem_singleton.2 ⟨id, hid, ?_⟩⟩
    rw [if_pos hr]
  · simp only [List.foldlM_cons, List.foldlM_nil, bind_pure] at hs
    obtain ⟨s₁, h₁, hs⟩ := bind_eq_ok.1 hs
    obtain ⟨ida, va, hida, -, rfl⟩ := see_ok h₁
    obtain ⟨idr, vr, hidr, -, rfl⟩ := see_ok hs
    rw [if_pos hr, if_neg (Bool.not_eq_true _ ▸ ha), rebase_eq tm tile rfl] at h
    simp [Seen.borrow, Seen.toFields] at h
    subst h
    refine ⟨r, by simp, ?_⟩
    simp only [List.mem_cons, List.not_mem_nil, or_false, forall_eq_or_imp, forall_eq]
    exact ⟨⟨ida, hida, by rw [ha]; rfl⟩, idr, hidr, by rw [hr]; rfl⟩
  · simp only [List.foldlM_cons, List.foldlM_nil, bind_pure] at hs
    obtain ⟨s₁, h₁, hs⟩ := bind_eq_ok.1 hs
    obtain ⟨idr, vr, hidr, -, rfl⟩ := see_ok h₁
    obtain ⟨ida, va, hida, -, rfl⟩ := see_ok hs
    rw [if_pos hr, if_neg (Bool.not_eq_true _ ▸ ha), rebase_eq tm tile rfl] at h
    simp [Seen.borrow, Seen.toFields] at h
    subst h
    refine ⟨a, by simp, ?_⟩
    simp only [List.mem_cons, List.not_mem_nil, or_false, forall_eq_or_imp, forall_eq]
    exact ⟨⟨idr, hidr, by rw [hr]; rfl⟩, ida, hida, by rw [ha]; rfl⟩

theorem lockValue_ok {tm : TargetModel} {op : UseLock} {v : BitVec 32}
    (h : lockValue tm op = .ok v) : v = op.encoded := by
  obtain ⟨action, lock, value, acqEn⟩ := op
  unfold lockValue at h
  cases value with
  | constant c => exact (Except.ok.inj h).symm
  | runtime c =>
    simp only at h
    by_cases hrange : c - (if (UseLock.acquireGE ⟨action, lock, .runtime c, acqEn⟩) = true then 1
        else 0) ≤ getMaxLockValue tm - (if (UseLock.acquireGE ⟨action, lock, .runtime c, acqEn⟩) =
          true then 1 else 0)
    · rw [if_pos hrange] at h
      exact (Except.ok.inj h).symm
    · rw [if_neg hrange] at h
      cases h

theorem rebaseFields_release {tm : TargetModel} {tile : TileID} {acquire : Option UseLock}
    {release : UseLock} {f f' : BdTemplateFields} {id : ℕ}
    (hset : setRelease tm release f = .ok f') (hid : release.lock.lockID = some id) :
    (⟨(rebaseFields tm tile acquire release f').lock_rel_id,
      (rebaseFields tm tile acquire release f').lock_rel_val⟩ : XAieLock) =
      ⟨moved tm tile release.lock.tile id, release.encoded⟩ := by
  unfold setRelease at hset
  rw [hid] at hset
  obtain ⟨v, hv, hset⟩ := bind_eq_ok.1 hset
  cases hset
  rw [lockValue_ok hv]
  unfold rebaseFields moved
  by_cases hmem : tm.isMemTile tile = true
  · rw [if_pos hmem, if_pos hmem]
    cases getLockLocalBaseIndex tm tile release.lock.tile with
    | none => rfl
    | some base => simp [hid]
  · rw [if_neg hmem, if_neg hmem]

theorem rebaseFields_acquire {tm : TargetModel} {tile : TileID} {acquire release : UseLock}
    {f f₁ f₂ : BdTemplateFields} {id : ℕ} (hset : setAcquire tm acquire f = .ok f₁)
    (hrelease : setRelease tm release f₁ = .ok f₂) (hid : acquire.lock.lockID = some id) :
    (⟨(rebaseFields tm tile (some acquire) release f₂).lock_acq_id,
      (rebaseFields tm tile (some acquire) release f₂).lock_acq_val⟩ : XAieLock) =
      ⟨moved tm tile release.lock.tile id, acquire.encoded⟩ := by
  have hkeep : f₂.lock_acq_id = f₁.lock_acq_id ∧ f₂.lock_acq_val = f₁.lock_acq_val := by
    unfold setRelease at hrelease
    cases hrid : release.lock.lockID with
    | none =>
      rw [hrid] at hrelease
      cases hrelease
      exact ⟨rfl, rfl⟩
    | some rid =>
      rw [hrid] at hrelease
      obtain ⟨v, -, hrelease⟩ := bind_eq_ok.1 hrelease
      cases hrelease
      exact ⟨rfl, rfl⟩
  unfold setAcquire at hset
  rw [hid] at hset
  obtain ⟨v, hv, hset⟩ := bind_eq_ok.1 hset
  cases hset
  unfold rebaseFields moved
  by_cases hmem : tm.isMemTile tile = true
  · rw [if_pos hmem, if_pos hmem]
    cases getLockLocalBaseIndex tm tile release.lock.tile with
    | none => simp [hkeep, lockValue_ok hv]
    | some base => simp [hkeep, lockValue_ok hv, hid]
  · rw [if_neg hmem, if_neg hmem, hkeep.1, hkeep.2, lockValue_ok hv]

theorem gatherLockFields_ok {tm : TargetModel} {block : List UseLock} {tile : TileID}
    {outOfOrder : Bool} {f : BdTemplateFields}
    (h : gatherLockFields tm block tile outOfOrder = .ok f) (hne : block ≠ []) :
    ∃ last ∈ block, ∀ op ∈ block, ∀ id, op.lock.lockID = some id →
      (if op.release then (⟨f.lock_rel_id, f.lock_rel_val⟩ : XAieLock)
        else ⟨f.lock_acq_id, f.lock_acq_val⟩) = ⟨moved tm tile last.lock.tile id, op.encoded⟩ := by
  unfold gatherLockFields at h
  obtain ⟨p, hp, h⟩ := bind_eq_ok.1 h
  rcases verifyBdLockPair_cases hp with ⟨rfl, -⟩ | ⟨r, rfl, hr, -, rfl⟩ |
    ⟨a, r, ha, hr, hblock, rfl⟩
  · exact absurd rfl hne
  · obtain ⟨f₁, -, h⟩ := bind_eq_ok.1 h
    obtain ⟨f', hf', h⟩ := bind_eq_ok.1 h
    cases h
    refine ⟨r, List.mem_singleton_self r, List.forall_mem_singleton.2 fun id hid => ?_⟩
    rw [if_pos hr]
    exact rebaseFields_release hf' hid
  · obtain ⟨f₁, hf₁, h⟩ := bind_eq_ok.1 h
    obtain ⟨f₂, hf₂, h⟩ := bind_eq_ok.1 h
    cases h
    have hfields : ∀ op ∈ [a, r], ∀ id, op.lock.lockID = some id →
        (if op.release then
          (⟨(rebaseFields tm tile (some a) r f₂).lock_rel_id,
            (rebaseFields tm tile (some a) r f₂).lock_rel_val⟩ : XAieLock)
        else ⟨(rebaseFields tm tile (some a) r f₂).lock_acq_id,
          (rebaseFields tm tile (some a) r f₂).lock_acq_val⟩) =
            ⟨moved tm tile r.lock.tile id, op.encoded⟩ := by
      simp only [List.mem_cons, List.not_mem_nil, or_false, forall_eq_or_imp, forall_eq]
      constructor
      · intro id hid
        rw [ha]
        exact rebaseFields_acquire hf₁ hf₂ hid
      · intro id hid
        rw [hr]
        exact rebaseFields_release hf₂ hid
    rcases hblock with rfl | rfl
    · exact ⟨r, by simp, hfields⟩
    · exact ⟨r, by simp, fun op hop => hfields op (by simpa [or_comm] using hop)⟩

/-- **The fields name the locks** of every block that is accepted, and hold their values, exactly if
on a mem tile all of them are on one tile; in a task every lock also needs its number. -/
theorem lockFields_name_iff (tm : TargetModel) (tile : TileID) (block : List UseLock)
    (outOfOrder : Bool) (hreach : ∀ op ∈ block, Reachable tm tile op.lock.tile)
    (hverified : ∀ op ∈ block, op.lock.Verified tm) :
    (∀ f, configureLocksInBdBlock tm block tile outOfOrder = .ok f →
      (FieldsName tm tile block f.acqLock f.relLock ↔ OneWindow tm tile block)) ∧
    (∀ f, gatherLockFields tm block tile outOfOrder = .ok f →
      (FieldsName tm tile block ⟨f.lock_acq_id, f.lock_acq_val⟩ ⟨f.lock_rel_id, f.lock_rel_val⟩ ↔
        (∀ op ∈ block, op.lock.lockID.isSome) ∧ OneWindow tm tile block)) := by
  constructor
  · intro f hf
    obtain ⟨last, hlast, hfields⟩ := configureLocksInBdBlock_ok hf
    rw [fieldsName_iff hlast hreach hverified]
    · refine and_iff_right fun op hop => ?_
      obtain ⟨id, hid, -⟩ := hfields op hop
      rw [hid]
      rfl
    · intro op hop id hid
      obtain ⟨id', hid', heq⟩ := hfields op hop
      rw [heq, Option.some_inj.1 (hid.symm.trans hid')]
  · intro f hf
    by_cases hne : block = []
    · subst hne
      exact iff_of_true (List.forall_mem_nil _)
        ⟨List.forall_mem_nil _, fun _ => List.forall_mem_nil _⟩
    · obtain ⟨last, hlast, hfields⟩ := gatherLockFields_ok hf hne
      exact fieldsName_iff hlast hreach hverified hfields

def memRow : TargetModel where
  arch := .AIE2
  columns := 4
  rows := 6
  getTileType t := if t.row = 0 then .ShimNOCTile else if t.row = 1 then .MemTile else .CoreTile
  getDMACapacity _ := (2, 2)
  getLocalMemorySize := 65536
  getMemTileSize := 524288
  getMemTileLoadStoreBusWidth := 128
  getComputeTileLoadStoreBusWidth := 256
  getComputeTileMaxVectorAlignBits := 512

def westAndOwn : List UseLock :=
  [⟨.AcquireGreaterEqual, ⟨⟨0, 1⟩, some 3⟩, .constant 1, true⟩,
    ⟨.Release, ⟨⟨1, 1⟩, some 5⟩, .constant 1, true⟩]

theorem westAndOwn_reachable : ∀ op ∈ westAndOwn, Reachable memRow ⟨1, 1⟩ op.lock.tile := by
  unfold Reachable
  decide

theorem westAndOwn_verified : ∀ op ∈ westAndOwn, op.lock.Verified memRow := by
  intro op hop id hid
  simp only [westAndOwn, List.mem_cons, List.not_mem_nil, or_false] at hop
  rcases hop with rfl | rfl
  · cases hid
    decide
  · cases hid
    decide

theorem westAndOwn_name_iff :
    FieldsName memRow ⟨1, 1⟩ westAndOwn ⟨67, -1⟩ ⟨69, 1⟩ ↔ OneWindow memRow ⟨1, 1⟩ westAndOwn :=
  (lockFields_name_iff memRow ⟨1, 1⟩ westAndOwn false westAndOwn_reachable westAndOwn_verified).1
    ⟨⟨67, -1⟩, ⟨69, 1⟩, true, false⟩ (by rfl)

/-- Its acquire field means a lock of its own tile, in both lowerings. -/
theorem westAndOwn_not_named :
    configureLocksInBdBlock memRow westAndOwn ⟨1, 1⟩ false =
        .ok ⟨⟨67, -1⟩, ⟨69, 1⟩, true, false⟩ ∧
      gatherLockFields memRow westAndOwn ⟨1, 1⟩ false = .ok ⟨1, 69, true, -1, 67⟩ ∧
      readLock memRow ⟨1, 1⟩ 67 = some (⟨1, 1⟩, 3) ∧
      ¬ FieldsName memRow ⟨1, 1⟩ westAndOwn ⟨67, -1⟩ ⟨69, 1⟩ := by
  refine ⟨by rfl, by rfl, by decide, fun h => ?_⟩
  obtain ⟨⟨id, hid, hread⟩, -⟩ := h _ List.mem_cons_self
  have hmeans : readLock memRow ⟨1, 1⟩ 67 = some (⟨1, 1⟩, 3) := by decide
  rw [if_neg (by decide), hmeans, Option.some_inj, Prod.mk.injEq] at hread
  exact absurd hread.1 (by decide)

end MlirAie.BdLocks
