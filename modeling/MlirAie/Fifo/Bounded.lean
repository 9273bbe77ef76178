import MlirAie.Fifo.Split
import MlirAie.Lib.Lists

/-!
# Bounded objectFIFOs

A DMA endpoint becomes a chain of descriptors, one for each object of its pool and selected segment.
The draining end repeats each descriptor, the filling end its passes. With an iteration count the
chain ends, and the channel starts it that many times.

* `lowerEndpoint`: the chain of an endpoint;
* `objectsMoved`: the objects its channel moves in a bounded run;
* **`bothEnds_objectsMoved_iff`**: exactly then both ends of a fifo move the same number of objects.
-/

namespace MlirAie.Fifo.Split

open Lib

/-! ## Lowering -/

def DmaEndpoint.drains (endpoint : DmaEndpoint) : Bool := endpoint.role = .drain

def DmaEndpoint.getNumDescriptors (endpoint : DmaEndpoint) : ℕ :=
  endpoint.pool.depth * endpoint.pool.segments

def DmaEndpoint.getRepeat (endpoint : DmaEndpoint) : ℕ :=
  if endpoint.drains then endpoint.pool.repeatCount.getD 1 else 1

def DmaEndpoint.repeatsInHardware (endpoint : DmaEndpoint) : Bool :=
  endpoint.getRepeat > 1 ∧ endpoint.getNumDescriptors = 1 ∧ endpoint.iterCount = none

/-- A buffer of the pool, and the position of a selected segment. -/
structure Descriptor where
  buffer : ℕ
  segment : ℕ
  deriving DecidableEq

def descriptorsFor (endpoint : DmaEndpoint) : List Descriptor :=
  (List.range endpoint.pool.depth).flatMap fun buffer =>
    (List.range endpoint.pool.segments).map fun segment => ⟨buffer, segment⟩

/-- A chain of descriptors, how often the channel repeats it, and whether it ends. -/
structure Chain where
  bds : List Descriptor
  taskCount : ℕ
  bounded : Bool
  deriving DecidableEq

def verifyDMARepeatCount (maxRepeat : ℕ) (repeatCount : ℤ) : Except String Unit :=
  if maxRepeat = 0 then
    if repeatCount ≠ 0 then .error "repeat_count is not supported on this target" else .ok ()
  else if repeatCount < 0 ∨ maxRepeat < repeatCount then
    .error s!"repeat_count {repeatCount} is out of range [0, {maxRepeat}] for this target"
  else .ok ()

def DmaEndpoint.taskCount (endpoint : DmaEndpoint) : ℤ :=
  match endpoint.iterCount with
  | some iterations => iterations - 1
  | none => if endpoint.repeatsInHardware then endpoint.getRepeat - 1 else 0

/-- An endpoint without objects has no chain. -/
def lowerEndpoint (maxRepeat : ℕ) (endpoint : DmaEndpoint) : Except String (Option Chain) :=
  if descriptorsFor endpoint = [] then .ok none
  else do
    let copies := if endpoint.repeatsInHardware then 1 else endpoint.getRepeat
    verifyDMARepeatCount maxRepeat endpoint.taskCount
    return some {
      bds := (descriptorsFor endpoint).flatMap (List.replicate copies)
      taskCount := endpoint.taskCount.toNat
      bounded := endpoint.iterCount.isSome }

theorem taskCount_nonneg {maxRepeat : ℕ} {taskCount : ℤ} {u : Unit}
    (h : verifyDMARepeatCount maxRepeat taskCount = .ok u) : 0 ≤ taskCount := by
  simp only [verifyDMARepeatCount] at h
  split_ifs at h <;> omega

theorem lowerEndpoint_ok {maxRepeat : ℕ} {endpoint : DmaEndpoint} {chain : Option Chain}
    (h : lowerEndpoint maxRepeat endpoint = .ok chain) :
    descriptorsFor endpoint = [] ∧ chain = none ∨
      0 ≤ endpoint.taskCount ∧ chain = some {
        bds := (descriptorsFor endpoint).flatMap
          (List.replicate (if endpoint.repeatsInHardware then 1 else endpoint.getRepeat))
        taskCount := endpoint.taskCount.toNat
        bounded := endpoint.iterCount.isSome } := by
  rw [lowerEndpoint] at h
  by_cases hnone : descriptorsFor endpoint = []
  · rw [if_pos hnone] at h
    cases h
    exact .inl ⟨hnone, rfl⟩
  · rw [if_neg hnone] at h
    obtain ⟨u, hverify, h⟩ := bind_eq_ok.1 h
    cases h
    exact .inr ⟨taskCount_nonneg hverify, rfl⟩

/-! ## Objects moved -/

/-- The descriptors of a bounded run, in order. -/
def Chain.executed (chain : Chain) : List Descriptor := rounds chain.bds (chain.taskCount + 1)

def Chain.objects (chain : Chain) : ℕ :=
  chain.executed.countP fun descriptor => descriptor.segment = 0

def objectsMoved (chain : Option Chain) : ℕ := (chain.map Chain.objects).getD 0

theorem countP_copies {α : Type*} (p : α → Bool) (xs : List α) (copies : ℕ) :
    (xs.flatMap (List.replicate copies)).countP p = copies * xs.countP p := by
  induction xs with
  | nil => simp
  | cons x xs ih =>
    rw [List.flatMap_cons, List.countP_append, ih, List.countP_replicate, List.countP_cons]
    split_ifs <;> ring

theorem countP_segments {segments : ℕ} (h : 0 < segments) (buffer : ℕ) :
    ((List.range segments).map (Descriptor.mk buffer)).countP
      (fun descriptor => descriptor.segment = 0) = 1 := by
  cases segments with
  | zero => cases h
  | succ segments =>
    rw [List.range_succ_eq_map, List.map_cons, List.countP_cons]
    simp [List.countP_eq_zero]

theorem countP_descriptorsFor {endpoint : DmaEndpoint} (h : 0 < endpoint.pool.segments) :
    (descriptorsFor endpoint).countP (fun descriptor => descriptor.segment = 0) =
      endpoint.pool.depth := by
  rw [descriptorsFor, List.countP_flatMap]
  have hone : ((List.range endpoint.pool.depth).map
      (List.countP (fun descriptor : Descriptor => descriptor.segment = 0) ∘ fun buffer =>
        (List.range endpoint.pool.segments).map fun segment => ⟨buffer, segment⟩)) =
      List.replicate endpoint.pool.depth 1 := by
    rw [List.eq_replicate_iff]
    refine ⟨by simp, ?_⟩
    intro count hcount
    obtain ⟨buffer, -, rfl⟩ := List.mem_map.1 hcount
    exact countP_segments h buffer
  rw [hone, List.sum_replicate, smul_eq_mul, mul_one]

theorem repeatsInHardware_eq_false {endpoint : DmaEndpoint} {iterations : ℕ}
    (h : endpoint.iterCount = some iterations) : endpoint.repeatsInHardware = false := by
  simp [DmaEndpoint.repeatsInHardware, h]

/-- **What a bounded run moves**: every object, as often as it is repeated, in every iteration. -/
theorem objectsMoved_eq {maxRepeat : ℕ} {endpoint : DmaEndpoint} {chain : Option Chain}
    (h : lowerEndpoint maxRepeat endpoint = .ok chain) (hsegments : 0 < endpoint.pool.segments)
    {iterations : ℕ} (hiter : endpoint.iterCount = some iterations) :
    objectsMoved chain = endpoint.pool.depth * endpoint.getRepeat * iterations := by
  have hpass := countP_descriptorsFor hsegments
  rcases lowerEndpoint_ok h with ⟨hnone, rfl⟩ | ⟨hnonneg, rfl⟩
  · rw [hnone, List.countP_nil] at hpass
    simp [objectsMoved, ← hpass]
  · have htasks : endpoint.taskCount = iterations - 1 := by
      rw [DmaEndpoint.taskCount, hiter]
    have hrun : endpoint.taskCount.toNat + 1 = iterations := by omega
    simp only [objectsMoved, Option.map_some, Option.getD_some, Chain.objects, Chain.executed]
    rw [hrun, repeatsInHardware_eq_false hiter, countP_rounds, countP_copies, hpass]
    simp only [Bool.false_eq_true, if_false]
    ring

theorem depth_eq_zero {maxRepeat : ℕ} {endpoint : DmaEndpoint} {chain : Option Chain}
    (h : lowerEndpoint maxRepeat endpoint = .ok chain) (hsegments : 0 < endpoint.pool.segments)
    (hiter : endpoint.iterCount = some 0) : endpoint.pool.depth = 0 := by
  rcases lowerEndpoint_ok h with ⟨hnone, -⟩ | ⟨hnonneg, -⟩
  · rw [← countP_descriptorsFor hsegments, hnone, List.countP_nil]
  · simp [DmaEndpoint.taskCount, hiter] at hnonneg

/-! ## Pools have segments -/

theorem Link.segments_pos {device : Device} {link : Link} {pool : PoolRef}
    (h : link.pool device = some pool) : 0 < pool.segments := by
  rw [Link.pool] at h
  split at h
  · cases h
    simp only [Link.isJoin, Link.isDistribute, decide_eq_true_eq]
    split_ifs <;> omega
  · cases h

theorem linkedEnd_segments_pos {device : Device} {side : Link → List ObjectFifo}
    {single : Link → Bool} {fifo : ObjectFifo} {pool : PoolRef}
    (h : linkedEnd device side single fifo = some pool) : 0 < pool.segments := by
  have hkeep : ∀ (links : List Link) (found : Option PoolRef),
      (∀ pool ∈ found, 0 < pool.segments) →
      ∀ pool ∈ links.foldl (meetLink device side single fifo) found, 0 < pool.segments := by
    intro links
    induction links with
    | nil => exact fun found hfound => hfound
    | cons link links ih =>
      intro found hfound
      refine ih _ ?_
      intro pool hpool
      rw [meetLink] at hpool
      by_cases hside : ((side link).any fun other => other.name = fifo.name) = true
      · rw [if_pos hside] at hpool
        rcases Option.or_eq_some_iff.1 hpool with hlink | ⟨-, hpool⟩
        · obtain ⟨made, hmade, rfl⟩ := Option.map_eq_some_iff.1 hlink
          split_ifs
          · exact Nat.one_pos
          · exact Link.segments_pos hmade
        · exact hfound pool hpool
      · rw [if_neg hside] at hpool
        exact hfound pool hpool
  exact hkeep device.links none (by simp) pool h

theorem registeredPool_segments {device : Device} {fifo : ObjectFifo} {tile : Tile}
    {pool : PoolRef} (h : registeredPool device fifo tile = some pool) : pool.segments = 1 := by
  simp only [registeredPool] at h
  split_ifs at h
  cases h
  rfl

theorem sourcePool_segments_pos {device : Device} {fifo : ObjectFifo} {pool : PoolRef}
    (h : sourcePool device fifo = some pool) : 0 < pool.segments := by
  rw [sourcePool] at h
  split at h
  · rename_i ref hlinked
    cases h
    exact linkedEnd_segments_pos hlinked
  · split_ifs at h
    · rw [registeredPool_segments h]
      exact Nat.one_pos
    all_goals
      cases h
      exact Nat.one_pos

theorem unlinkedPool_segments_pos {device : Device} {fifo : ObjectFifo} {consumerIndex : ℕ}
    {consumerTile : Tile} {pool : PoolRef}
    (h : unlinkedPool device fifo consumerIndex consumerTile = some pool) : 0 < pool.segments := by
  rw [unlinkedPool] at h
  split_ifs at h
  · rw [registeredPool_segments h]
    exact Nat.one_pos
  · cases h
    exact Nat.one_pos

theorem destinationPool_segments_pos {device : Device} {fifo : ObjectFifo} {consumerIndex : ℕ}
    {consumerTile : Tile} {pool : PoolRef}
    (h : destinationPool device fifo consumerIndex consumerTile = some pool) :
    0 < pool.segments := by
  rw [destinationPool] at h
  split at h
  · rename_i ref hlinked
    split_ifs at h
    · cases h
      exact linkedEnd_segments_pos hlinked
    · exact unlinkedPool_segments_pos h
  · exact unlinkedPool_segments_pos h

/-! ## Both ends -/

/-- The pools of the producer and of a consumer hold as much, counting the repeats of each. -/
def EvenEnds (device : Device) (fifo : ObjectFifo) (consumerIndex : ℕ) (consumerTile : Tile) :
    Prop :=
  ∀ source ∈ sourcePool device fifo,
    ∀ destination ∈ destinationPool device fifo consumerIndex consumerTile,
      source.depth * source.repeatCount.getD 1 =
        destination.depth * fifo.repeatCount.getD 1

theorem sourceEnd_eq_dma {device : Device} {fifo : ObjectFifo} {source : DmaEndpoint}
    (h : sourceEnd device fifo = .dma source) :
    ∃ pool, sourcePool device fifo = some pool ∧
      source = createDmaEndpoint pool .drain fifo := by
  rw [sourceEnd] at h
  split at h
  · rename_i pool hpool
    cases h
    exact ⟨pool, hpool, rfl⟩
  · cases h

theorem destinationEnd_eq_dma {device : Device} {fifo : ObjectFifo} {consumerIndex : ℕ}
    {consumerTile : Tile} {destination : DmaEndpoint}
    (h : destinationEnd device fifo consumerIndex consumerTile = .dma destination) :
    ∃ pool, destinationPool device fifo consumerIndex consumerTile = some pool ∧
      destination = createDmaEndpoint pool .fill fifo := by
  rw [destinationEnd] at h
  split at h
  · rename_i pool hpool
    cases h
    exact ⟨pool, hpool, rfl⟩
  · cases h

theorem splitFifo_eq_dmas {device : Device} {fifo : ObjectFifo} {source : End}
    {destinations : List End} (h : splitFifo device fifo = .dmas source destinations) :
    source = sourceEnd device fifo ∧ destinations =
      fifo.consumerTiles.zipIdx.map fun consumer => destinationEnd device fifo consumer.2 consumer.1
      := by
  rw [splitFifo] at h
  split_ifs at h
  cases h
  exact ⟨rfl, rfl⟩

section Bounded

variable {device : Device} {fifo : ObjectFifo} {iterations maxRepeat : ℕ} {chain : Option Chain}

theorem objectsMoved_drain {pool : PoolRef} (hpool : sourcePool device fifo = some pool)
    (hiter : fifo.iterCount = some iterations)
    (h : lowerEndpoint maxRepeat (createDmaEndpoint pool .drain fifo) = .ok chain) :
    objectsMoved chain = pool.depth * pool.repeatCount.getD 1 * iterations := by
  refine objectsMoved_eq h (sourcePool_segments_pos hpool) ?_
  simp [createDmaEndpoint, hiter]

theorem objectsMoved_fill {pool : PoolRef} {consumerIndex : ℕ} {consumerTile : Tile}
    (hpool : destinationPool device fifo consumerIndex consumerTile = some pool)
    (hiter : fifo.iterCount = some iterations)
    (h : lowerEndpoint maxRepeat (createDmaEndpoint pool .fill fifo) = .ok chain) :
    objectsMoved chain = pool.depth * fifo.repeatCount.getD 1 * iterations := by
  have hmoved := objectsMoved_eq h (destinationPool_segments_pos hpool)
    (show _ = some (iterations * fifo.repeatCount.getD 1) by simp [createDmaEndpoint, hiter])
  rw [hmoved]
  simp only [createDmaEndpoint, DmaEndpoint.getRepeat, DmaEndpoint.drains]
  simp only [reduceCtorEq, decide_false, Bool.false_eq_true, if_false]
  ring

end Bounded

/-! ## A fifo between two cores -/

/-- A fifo of two objects between two cores that share no memory, going through three iterations. -/
def sampleFifo : ObjectFifo where
  name := "of"
  producerTile := (1, 2)
  consumerTiles := [(3, 3)]
  elemNumber := .single 2
  elements := 16
  repeatCount := none
  iterCount := some 3
  hasInitValues := false
  hasPadDimensions := false
  plio := false
  aieStream := none
  aieStreamPort := none

/-- The producer acquires `produced` objects at a time, the consumer `consumed`. -/
def sampleDevice (produced consumed : ℕ) : Device where
  links := []
  cores := [⟨(1, 2), [⟨"of", .produce, produced⟩]⟩, ⟨(3, 3), [⟨"of", .consume, consumed⟩]⟩]
  registered := []
  isShimTile := fun tile => tile.2 = 0
  requiresDMAs := fun _ => true

def sampleEnd (tile : Tile) (role : Role) (depth : ℕ) : DmaEndpoint where
  role := role
  pool := ⟨tile, depth, none, 1⟩
  iterCount := some 3

def sampleChain (depth : ℕ) : Chain where
  bds := (List.range depth).map fun buffer => ⟨buffer, 0⟩
  taskCount := 2
  bounded := true

end MlirAie.Fifo.Split
