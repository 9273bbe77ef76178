import MlirAie.Placer.Device
import MlirAie.Buffers.Compaction

/-!
# ObjectFIFOs in the annealing placer and in the split pass

* `Device`: the objectFIFOs, links and allocates of a design;
* `Device.buildFifoBufferInfo`: what the placer keeps of a fifo;
* `Device.requiresDMAs`: whether the split pass connects it by DMAs, its tiles being placed.
-/

namespace MlirAie.Placer

/-! ## Designs -/

structure MemRefType where
  numElements : ℤ
  elementBits : ℤ
deriving Repr

def MemRefType.bytes (t : MemRefType) : ℤ := t.numElements * t.elementBits / 8

/-- `elemNumber`: one depth, or one for each end. -/
inductive Depths
  | all (depth : ℤ)
  | each (depths : List ℤ)
deriving Repr

structure ObjectFifoCreateOp where
  symName : String
  producerTile : Tile
  consumerTiles : List Tile
  elemNumber : Depths
  elemType : MemRefType
  consumerElemType : Option MemRefType := none
  viaDMA : Bool := false
  repeatCount : Option ℤ := none
  aieStream : Option ℤ := none
  /-- the sizes and strides of the producer -/
  dimensionsToStream : List (ℤ × ℤ) := []
  dimensionsFromStreamPerConsumer : List (List (ℤ × ℤ)) := []
deriving Repr

structure ObjectFifoLinkOp where
  fifoIns : List String
  fifoOuts : List String
deriving Repr

structure ObjectFifoAllocateOp where
  objFifoName : String
  delegateTile : Tile
deriving Repr

structure ObjectFifoAcquireOp where
  objFifoName : String
  tile : Tile
  acqNumber : ℤ
deriving Repr

/-- What both passes read of a device. A second allocate for the same fifo is rejected. -/
structure Device where
  target : TargetModel
  logicalTiles : List LogicalTileOp
  objectFifos : List ObjectFifoCreateOp
  links : List ObjectFifoLinkOp
  allocates : List ObjectFifoAllocateOp
  acquires : List ObjectFifoAcquireOp
  allocates_nodup : (allocates.map ObjectFifoAllocateOp.objFifoName).Nodup

/-! ## The placer's view of a fifo -/

structure FifoBufferInfo where
  producer : Option ℕ
  consumers : List ℕ
  delegate : Option Tile
  producerSizeBytes : ℤ
  consumerSizeBytes : ℤ
  producerDepth : ℤ
  consumerDepths : List ℤ
  producerDMADepth : ℤ
  consumerDMADepths : List ℤ
  forcesDMA : Bool
  linkSharedProd : Bool
deriving Repr

def FifoBufferInfo.consumerDepthAt (fb : FifoBufferInfo) (ci : ℕ) : ℤ :=
  fb.consumerDepths.getD ci fb.producerDepth

def FifoBufferInfo.consumerDMADepthAt (fb : FifoBufferInfo) (ci : ℕ) : ℤ :=
  fb.consumerDMADepths.getD ci fb.producerDMADepth

def requiredBufferAlignBits (busAlignBits maxVecAlignBits sizeBytes : ℤ) : ℤ :=
  if maxVecAlignBits ≤ busAlignBits then busAlignBits
  else if sizeBytes * 8 ≥ maxVecAlignBits then maxVecAlignBits
  else busAlignBits

def alignedBufferBytes (tm : TargetModel) (tileType : AIETileType) (bytes : ℤ) : ℤ :=
  let limits :=
    if tileType = .MemTile then (tm.getMemTileLoadStoreBusWidth, tm.getMemTileLoadStoreBusWidth)
    else (tm.getComputeTileLoadStoreBusWidth, tm.getComputeTileMaxVectorAlignBits)
  Buffers.alignTo bytes (requiredBufferAlignBits limits.1 limits.2 bytes / 8)

namespace Device

variable (d : Device)

def tileType (op : ℕ) : Option AIETileType := d.logicalTiles[op]?.map LogicalTileOp.tileType

def isCore (op : ℕ) : Bool := d.tileType op = some .CoreTile

def isShim (op : ℕ) : Bool := d.tileType op = some .ShimNOCTile || d.tileType op = some .ShimPLTile

def isLinked (name : String) : Bool :=
  d.links.any fun link => name ∈ link.fifoIns || name ∈ link.fifoOuts

def delegate (name : String) : Option Tile :=
  (d.allocates.find? (·.objFifoName = name)).map ObjectFifoAllocateOp.delegateTile

def endpointMaxAcquire (name : String) (tile : Tile) : Option ℤ :=
  ((d.acquires.filter fun a => a.objFifoName = name ∧ a.tile = tile).map
    ObjectFifoAcquireOp.acqNumber).max?

/-- The depth of an end that a DMA serves: room for the most that is acquired, and one more. -/
def dmaDepth (name : String) (op : ℕ) (declared : ℤ) : ℤ :=
  match d.endpointMaxAcquire name (.logical op) with
  | some maxAcq => if maxAcq = 1 ∧ declared = 1 then 1 else maxAcq + 1
  | none => declared

def buildFifoBufferInfo (ofOp : ObjectFifoCreateOp) : FifoBufferInfo :=
  let producer := ofOp.producerTile.logical?
  let consumers := ofOp.consumerTiles.filterMap Tile.logical?
  let prodType := (producer.bind d.tileType).getD .CoreTile
  let producerBytes := ofOp.elemType.bytes
  let consumerBytes := (ofOp.consumerElemType.map MemRefType.bytes).getD producerBytes
  let coreConsumer := consumers.any d.isCore
  let producerDepth :=
    match ofOp.elemNumber with
    | .all depth => depth
    | .each depths => depths.headD 1
  let consumerDepths :=
    match ofOp.elemNumber with
    | .all depth => consumers.map fun _ => depth
    | .each depths => (List.range consumers.length).map fun i => depths.getD (i + 1) producerDepth
  let isLinked := d.isLinked ofOp.symName
  { producer, consumers, producerDepth, consumerDepths
    delegate := d.delegate ofOp.symName
    producerSizeBytes := alignedBufferBytes d.target prodType producerBytes
    consumerSizeBytes :=
      alignedBufferBytes d.target (if coreConsumer then .CoreTile else .MemTile) consumerBytes
    producerDMADepth :=
      (producer.map fun op => d.dmaDepth ofOp.symName op producerDepth).getD producerDepth
    consumerDMADepths := consumers.zipWith (d.dmaDepth ofOp.symName) consumerDepths
    forcesDMA :=
      ofOp.viaDMA || ofOp.repeatCount.isSome || ofOp.consumerElemType.isSome ||
        !ofOp.dimensionsToStream.isEmpty || isLinked
    linkSharedProd := isLinked && d.links.any fun link => ofOp.symName ∈ link.fifoOuts }

/-! ## The split pass -/

def delegateReachesBothEnds (producer consumer delegate : TileID) : Bool :=
  let reachesDelegate (e : TileID) :=
    let shared := d.target.getSharedMemory delegate e
    shared = .First || shared = .Either
  reachesDelegate producer && reachesDelegate consumer

/-- The module that both ends share, where `pos` is where each tile was placed; none unless there is
one consumer and the producer does not reshape the data. -/
def sharedModule (pos : Tile → TileID) (ofOp : ObjectFifoCreateOp) : SharedMemory :=
  match ofOp.consumerTiles with
  | [consumer] =>
    if ofOp.dimensionsToStream.isEmpty then
      d.target.getSharedMemory (pos ofOp.producerTile) (pos consumer)
    else .None
  | _ => .None

def hasReachedDelegate (pos : Tile → TileID) (ofOp : ObjectFifoCreateOp) : Bool :=
  match d.delegate ofOp.symName, ofOp.consumerTiles with
  | some delegate, consumer :: _ =>
    d.delegateReachesBothEnds (pos ofOp.producerTile) (pos consumer) (pos delegate)
  | _, _ => false

def requiresDMAs (pos : Tile → TileID) (ofOp : ObjectFifoCreateOp) : Bool :=
  if ofOp.viaDMA || ofOp.repeatCount.isSome || ofOp.aieStream.isSome ||
      ofOp.consumerElemType.isSome then true
  else if d.sharedModule pos ofOp = .None then true
  else if ofOp.dimensionsFromStreamPerConsumer.any fun dims => !dims.isEmpty then true
  else if d.isLinked ofOp.symName then !d.hasReachedDelegate pos ofOp
  else false

end Device

end MlirAie.Placer
