import MlirAie.Placer.Fifo

/-!
# What a fifo adds to the use of memory and DMA channels

* `Usage`: the memory and the channels in use, and the shared-memory choices that are remembered;
* `memCharges`, `addFifoContribution`: the charges of one consumer, and of a fifo;
* **`chargesDMA_iff`**: channels are charged for a fifo with a consumer that is on another tile and
  not reached through shared memory.
-/

namespace MlirAie.Placer

/-- `currentMemUsage`, `currentDMAUsage` (in and out) and `sharedMemDestination`. -/
structure Usage where
  mem : TileID → ℤ := fun _ => 0
  dma : TileID → ℤ × ℤ := fun _ => (0, 0)
  dest : ℕ → Option TileID := fun _ => none

/-- `currentPlacement`. -/
abbrev Placement := ℕ → Option TileID

/-- The position of a logical tile that was placed, or of a placed one. -/
def positionOf (placement : Placement) : Option Tile → Option TileID
  | some (.logical op) => placement op
  | some (.placed pos) => some pos
  | none => none

/-- A consumer of a fifo, both ends being placed. -/
structure Connection where
  prod : ℕ
  prodPos : TileID
  cons : ℕ
  consPos : TileID
  /-- the position of the consumer among the consumers of the fifo -/
  ci : ℕ
deriving Repr

namespace Device

variable (d : Device)

/-- The producer can access the memory module of the consumer. -/
def rightShared (c : Connection) : Bool := d.target.isLegalMemAffinity c.prodPos c.consPos

def leftShared (c : Connection) : Bool := d.target.isLegalMemAffinity c.consPos c.prodPos

def isSharedMem (fb : FifoBufferInfo) (c : Connection) : Bool :=
  !fb.forcesDMA && d.isCore c.prod && d.isCore c.cons && c.prodPos ≠ c.consPos &&
    (d.rightShared c || d.leftShared c)

def usesDMA (fb : FifoBufferInfo) (c : Connection) : Bool :=
  c.prodPos ≠ c.consPos && !d.isSharedMem fb c

/-- Both ends reach the module of the other one, and no delegate says which is used. -/
def choosesShared (fb : FifoBufferInfo) (delegatePos : Option TileID) (c : Connection) : Bool :=
  c.prodPos ≠ c.consPos && d.isSharedMem fb c && delegatePos.isNone && d.rightShared c &&
    d.leftShared c

/-- The tile whose memory holds shared objects, where `chosen` is used if both ends could. -/
def bufTile (delegatePos : Option TileID) (c : Connection) (chosen : TileID) : TileID :=
  match delegatePos with
  | some pos => pos
  | none =>
    if d.rightShared c && d.leftShared c then chosen
    else if d.rightShared c then c.consPos
    else c.prodPos

/-- The memory that one consumer adds, tile by tile. The producer is charged with the first consumer
that it serves by a DMA; the flag says whether it was. -/
def memCharges (fb : FifoBufferInfo) (delegatePos : Option TileID) (c : Connection)
    (chosen : TileID) (prodCharged : Bool) : List (TileID × ℤ) × Bool :=
  let prodIsCore := d.isCore c.prod
  let consIsCore := d.isCore c.cons
  let consDeclDepth := fb.consumerDepthAt c.ci
  let consDMADepth := fb.consumerDMADepthAt c.ci
  let sharedBytes :=
    max fb.producerSizeBytes fb.consumerSizeBytes * max fb.producerDepth consDeclDepth
  let coreProducer :=
    if prodCharged then [] else [(c.prodPos, fb.producerSizeBytes * fb.producerDMADepth)]
  let chargesMem := !prodCharged && !d.isShim c.prod && !fb.linkSharedProd
  let memProducer :=
    if chargesMem then [(c.prodPos, fb.producerSizeBytes * fb.producerDepth)] else []
  if c.prodPos = c.consPos then ([(delegatePos.getD c.prodPos, sharedBytes)], prodCharged)
  else if d.isSharedMem fb c then ([(d.bufTile delegatePos c chosen, sharedBytes)], prodCharged)
  else if prodIsCore && consIsCore then
    (coreProducer ++ [(c.consPos, fb.consumerSizeBytes * consDMADepth)], true)
  else if prodIsCore then
    (coreProducer ++
      if d.isShim c.cons then [] else [(c.consPos, fb.consumerSizeBytes * consDeclDepth)], true)
  else if consIsCore then
    (memProducer ++ [(c.consPos, fb.consumerSizeBytes * consDMADepth)], prodCharged || chargesMem)
  else
    (memProducer ++
      if d.isShim c.cons then [] else [(c.consPos, fb.consumerSizeBytes * consDeclDepth)],
      prodCharged || chargesMem)

end Device

/-- `usage[tile] += sign * bytes` for each charge. -/
def addCharges (sign : ℤ) (charges : List (TileID × ℤ)) (mem : TileID → ℤ) : TileID → ℤ :=
  charges.foldl (fun mem c => Function.update mem c.1 (mem c.1 + sign * c.2)) mem

/-- The state of the loop over the consumers of a fifo. -/
structure Charging where
  usage : Usage
  prodCharged : Bool := false
  prodNeedsDMA : Bool := false

namespace Device

variable (d : Device)

/-- The tile that holds the objects where both ends could: the emptier one as the fifo is added,
and the one that is remembered as it is taken away. -/
def chooseShared (fifoIdx : ℕ) (c : Connection) (sign : ℤ) (u : Usage) : TileID :=
  if 0 < sign then if u.mem c.prodPos ≤ u.mem c.consPos then c.prodPos else c.consPos
  else (u.dest fifoIdx).getD c.prodPos

/-- The choice is remembered for a fifo with one consumer. -/
def noteShared (fifoIdx : ℕ) (fb : FifoBufferInfo) (delegatePos : Option TileID) (c : Connection)
    (sign : ℤ) (u : Usage) : ℕ → Option TileID :=
  if d.choosesShared fb delegatePos c && 0 < sign && fb.consumers.length = 1 then
    Function.update u.dest fifoIdx (some (chooseShared fifoIdx c sign u))
  else u.dest

def addConsumer (fifoIdx : ℕ) (fb : FifoBufferInfo) (delegatePos : Option TileID) (sign : ℤ)
    (r : Charging) (c : Connection) : Charging :=
  let u := r.usage
  let charges := d.memCharges fb delegatePos c (chooseShared fifoIdx c sign u) r.prodCharged
  { usage :=
      { mem := addCharges sign charges.1 u.mem
        dma :=
          if d.usesDMA fb c then
            Function.update u.dma c.consPos ((u.dma c.consPos).1 + sign, (u.dma c.consPos).2)
          else u.dma
        dest := d.noteShared fifoIdx fb delegatePos c sign u }
    prodCharged := charges.2
    prodNeedsDMA := r.prodNeedsDMA || d.usesDMA fb c }

/-- The consumers that are placed. -/
def connections (placement : Placement) (prod : ℕ) (prodPos : TileID) (consumers : List ℕ) :
    List Connection :=
  consumers.zipIdx.filterMap fun x => (placement x.1).map fun consPos =>
    ⟨prod, prodPos, x.1, consPos, x.2⟩

/-- `addFifoContribution`: adds the fifo to the use of memory and channels, or takes it away. -/
def addFifoContribution (placement : Placement) (fifoIdx : ℕ) (fb : FifoBufferInfo) (sign : ℤ)
    (u : Usage) : Usage :=
  match fb.producer with
  | none => u
  | some prod =>
    match placement prod with
    | none => u
    | some prodPos =>
      let r := (connections placement prod prodPos fb.consumers).foldl
        (d.addConsumer fifoIdx fb (positionOf placement fb.delegate) sign) { usage := u }
      if r.prodNeedsDMA then
        { r.usage with
          dma := Function.update r.usage.dma prodPos
            ((r.usage.dma prodPos).1, (r.usage.dma prodPos).2 + sign) }
      else r.usage

/-! ## Channels -/

/-- The placed connections of a fifo; none if its producer is not placed. -/
def placedConnections (placement : Placement) (fb : FifoBufferInfo) : List Connection :=
  (fb.producer.bind fun prod => (placement prod).map fun prodPos =>
    connections placement prod prodPos fb.consumers).getD []

/-- The channels that a fifo takes on a tile: one in for each consumer that a DMA serves there, and
one out where its producer feeds such a consumer. -/
def channels (placement : Placement) (fb : FifoBufferInfo) (t : TileID) : ℤ × ℤ :=
  let served := (placedConnections placement fb).filter (d.usesDMA fb)
  ((served.countP fun c => c.consPos = t : ℕ),
    if served.any fun c => c.prodPos = t then 1 else 0)

variable {d} {placement : Placement} {fifoIdx : ℕ} {fb : FifoBufferInfo} {sign : ℤ} {u : Usage}

theorem foldl_addConsumer_dma (delegatePos : Option TileID) (l : List Connection) (r : Charging)
    (t : TileID) :
    let r' := l.foldl (d.addConsumer fifoIdx fb delegatePos sign) r
    r'.usage.dma t = ((r.usage.dma t).1 +
        sign * ((l.filter (d.usesDMA fb)).countP fun c => c.consPos = t : ℕ), (r.usage.dma t).2) ∧
      r'.prodNeedsDMA = (r.prodNeedsDMA || l.any (d.usesDMA fb)) := by
  induction l generalizing r with
  | nil => simp
  | cons c l ih =>
    obtain ⟨hdma, hneeds⟩ := ih (d.addConsumer fifoIdx fb delegatePos sign r c)
    simp only [List.foldl_cons]
    rw [hdma, hneeds]
    constructor
    · by_cases huse : d.usesDMA fb c = true
      · rw [List.filter_cons_of_pos huse]
        by_cases ht : c.consPos = t
        · subst ht
          rw [List.countP_cons_of_pos (by simp)]
          simp only [addConsumer, huse, if_true, Function.update_self, Nat.cast_add, Nat.cast_one]
          congr 1
          ring
        · rw [List.countP_cons_of_neg (by simpa using ht)]
          simp only [addConsumer, huse, if_true, Function.update_of_ne (Ne.symm ht)]
      · rw [List.filter_cons_of_neg huse]
        simp only [addConsumer, huse, if_false, Bool.false_eq_true]
    · rw [List.any_cons, ← Bool.or_assoc]
      rfl

theorem connections_prodPos {prod : ℕ} {prodPos : TileID} {consumers : List ℕ} {c : Connection}
    (hc : c ∈ connections placement prod prodPos consumers) : c.prodPos = prodPos := by
  obtain ⟨x, _, hx⟩ := List.mem_filterMap.1 hc
  obtain ⟨consPos, _, rfl⟩ := Option.map_eq_some_iff.1 hx
  rfl

/-- **The channels that are added or taken away** do not depend on the state. -/
theorem addFifoContribution_dma (t : TileID) :
    (d.addFifoContribution placement fifoIdx fb sign u).dma t =
      ((u.dma t).1 + sign * (d.channels placement fb t).1,
        (u.dma t).2 + sign * (d.channels placement fb t).2) := by
  unfold addFifoContribution channels placedConnections
  cases hprod : fb.producer with
  | none => simp
  | some prod =>
    cases hpos : placement prod with
    | none => simp [hpos]
    | some prodPos =>
      simp only [hpos, Option.bind_some, Option.map_some, Option.getD_some]
      obtain ⟨hdma, hneeds⟩ := @foldl_addConsumer_dma d fifoIdx fb sign
        (positionOf placement fb.delegate) (connections placement prod prodPos fb.consumers)
        { usage := u } t
      have hany : ((connections placement prod prodPos fb.consumers).filter (d.usesDMA fb)).any
          (fun c => c.prodPos = t) =
            ((connections placement prod prodPos fb.consumers).any (d.usesDMA fb) &&
              decide (prodPos = t)) := by
        rw [List.any_filter, Bool.eq_iff_iff, Bool.and_eq_true, List.any_eq_true, List.any_eq_true,
          decide_eq_true_iff]
        constructor
        · rintro ⟨c, hc, huse⟩
          obtain ⟨huse, ht⟩ := Bool.and_eq_true_iff.1 huse
          exact ⟨⟨c, hc, huse⟩, (connections_prodPos hc).symm.trans (of_decide_eq_true ht)⟩
        · rintro ⟨⟨c, hc, huse⟩, ht⟩
          exact ⟨c, hc, Bool.and_eq_true_iff.2
            ⟨huse, decide_eq_true ((connections_prodPos hc).trans ht)⟩⟩
      rw [hany, hneeds, Bool.false_or]
      by_cases hserved : (connections placement prod prodPos fb.consumers).any (d.usesDMA fb) = true
      · rw [if_pos hserved, hserved, Bool.true_and]
        by_cases ht : prodPos = t
        · subst ht
          show Function.update _ prodPos _ prodPos = _
          rw [Function.update_self, hdma, if_pos (decide_eq_true rfl), mul_one]
        · show Function.update _ prodPos _ t = _
          rw [Function.update_of_ne (Ne.symm ht), hdma, if_neg (by simpa using ht), mul_zero,
            add_zero]
      · rw [if_neg hserved, hdma, Bool.eq_false_of_not_eq_true hserved, Bool.false_and,
          if_neg Bool.false_ne_true, mul_zero, add_zero]

/-- **Channels are charged for a fifo** with a consumer that a DMA serves. -/
theorem chargesDMA_iff :
    (d.addFifoContribution placement fifoIdx fb 1 u).dma ≠ u.dma ↔
      ∃ c ∈ placedConnections placement fb, d.usesDMA fb c = true := by
  constructor
  · intro hne
    by_contra hnone
    refine hne (funext fun t => ?_)
    have hserved : (placedConnections placement fb).filter (d.usesDMA fb) = [] :=
      List.filter_eq_nil_iff.2 fun c hc huse => hnone ⟨c, hc, huse⟩
    rw [addFifoContribution_dma]
    simp [channels, hserved]
  · rintro ⟨c, hc, huse⟩ heq
    have ht := congrFun heq c.consPos
    rw [addFifoContribution_dma] at ht
    have hcount : 0 < ((placedConnections placement fb).filter (d.usesDMA fb)).countP
        fun c' => c'.consPos = c.consPos :=
      List.countP_pos_iff.2 ⟨c, List.mem_filter.2 ⟨hc, huse⟩, by simp⟩
    have hfst := congrArg Prod.fst ht
    simp only [channels, one_mul] at hfst
    omega

end Device

end MlirAie.Placer
