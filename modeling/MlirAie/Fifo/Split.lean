import Mathlib

/-!
# Splitting objectFIFOs

The split turns each objectFIFO whose ends share no memory into a pool and a DMA endpoint per end.
The depth of a pool comes from the acquires of the cores on its tile, from a depth stated per end,
or from the link the fifo meets.

* `createLinkPools`: the pools linked fifos share;
* `createDmaEndpoint`: an end as its DMA channel sees it;
* `splitFifo`: the ends of a fifo.
-/

namespace MlirAie.Fifo.Split

/-! ## The device -/

abbrev Tile := ℕ × ℕ

inductive Port where
  | produce
  | consume
  deriving DecidableEq

/-- An access in the body of a core; a release names no number of acquired objects. -/
structure CoreAccess where
  fifo : String
  port : Port
  acquires : ℕ
  deriving DecidableEq

structure Core where
  tile : Tile
  accesses : List CoreAccess

/-- One depth for all ends, or one for the producer and for each consumer. -/
inductive ElemNumber where
  | single (depth : ℕ)
  | perEnd (depths : List ℕ)

/-- `aie.objectfifo`. -/
structure ObjectFifo where
  name : String
  producerTile : Tile
  consumerTiles : List Tile
  elemNumber : ElemNumber
  /-- Elements of an object. -/
  elements : ℕ
  repeatCount : Option ℕ
  iterCount : Option ℕ
  hasInitValues : Bool
  hasPadDimensions : Bool
  plio : Bool
  aieStream : Option ℕ
  aieStreamPort : Option ℕ

def ObjectFifo.size (fifo : ObjectFifo) (index : ℕ) : ℕ :=
  match fifo.elemNumber with
  | .single depth => depth
  | .perEnd depths => depths.getD index 0

/-- `aie.objectfifo.link`. -/
structure Link where
  ins : List ObjectFifo
  outs : List ObjectFifo

def Link.isJoin (link : Link) : Bool := link.ins.length > 1

def Link.isDistribute (link : Link) : Bool := link.outs.length > 1

def Link.getRepeatCount (link : Link) : Option ℕ := link.outs.findSome? ObjectFifo.repeatCount

structure RegisteredBuffers where
  fifo : String
  tile : Tile
  buffers : ℕ

/-- What the split reads of a device. Whether a fifo needs DMAs depends on which tiles share
memory. -/
structure Device where
  links : List Link
  cores : List Core
  registered : List RegisteredBuffers
  isShimTile : Tile → Bool
  requiresDMAs : ObjectFifo → Bool

/-! ## Depths -/

def maxAcquireOn (device : Device) (tile : Tile) (fifo : ObjectFifo) : ℕ :=
  (device.cores.filter fun core => core.tile = tile).foldl (fun most core =>
    (core.accesses.filter fun access => access.fifo = fifo.name).foldl
      (fun most access => max most access.acquires) most) 0

def objectCountOn (device : Device) (tile : Tile) (fifo : ObjectFifo) : ℕ :=
  if fifo.size 0 = 0 then 0
  else if maxAcquireOn device tile fifo = 0 then fifo.size 0
  else if maxAcquireOn device tile fifo = 1 ∧ fifo.size 0 = 1 then 1
  else maxAcquireOn device tile fifo + 1

def sharedObjectCount (fifo : ObjectFifo) : ℕ :=
  match fifo.elemNumber with
  | .single depth => depth
  | .perEnd depths => depths.tail.foldl max (fifo.size 0)

/-! ## Pools -/

/-- A pool, and the number of its segments an end handles. -/
structure PoolRef where
  tile : Tile
  depth : ℕ
  repeatCount : Option ℕ
  segments : ℕ
  deriving DecidableEq

def Link.getOptionalSharedTile (link : Link) : Option Tile :=
  match link.ins, link.outs with
  | fifoIn :: ins, fifoOut :: outs =>
    if link.isJoin then
      if (fifoIn :: ins).all fun fifo => fifo.consumerTiles.head? = some fifoOut.producerTile then
        some fifoOut.producerTile
      else none
    else if link.isDistribute then
      if (fifoOut :: outs).all fun fifo => fifoIn.consumerTiles.head? = some fifo.producerTile then
        fifoIn.consumerTiles.head?
      else none
    else if fifoOut.producerTile ∈ fifoIn.consumerTiles then some fifoOut.producerTile
    else none
  | _, _ => none

def Link.ownerIsOutput (link : Link) (fifoIn fifoOut : ObjectFifo) : Bool :=
  link.isJoin || (!link.isDistribute && (fifoOut.hasInitValues ||
    (decide (fifoIn.elements < fifoOut.elements) && !fifoOut.hasPadDimensions)))

def Link.poolDepth (device : Device) (link : Link) (sharedTile : Tile)
    (fifoIn fifoOut : ObjectFifo) : ℕ :=
  if link.ownerIsOutput fifoIn fifoOut then fifoOut.size 0
  else
    match fifoIn.elemNumber with
    | .perEnd _ => fifoIn.size (fifoIn.consumerTiles.idxOf sharedTile + 1)
    | .single _ => objectCountOn device sharedTile fifoIn

/-- The pool of a link, one segment for each fifo of the side that is joined or distributed. -/
def Link.pool (device : Device) (link : Link) : Option PoolRef :=
  match link.getOptionalSharedTile, link.ins, link.outs with
  | some sharedTile, fifoIn :: _, fifoOut :: _ =>
    some {
      tile := sharedTile
      depth := link.poolDepth device sharedTile fifoIn fifoOut
      repeatCount := link.getRepeatCount
      segments := if link.isJoin then link.ins.length else
        if link.isDistribute then link.outs.length else 1 }
  | _, _, _ => none

/-- A link with the fifo at that side takes the place of the one found before it. -/
def meetLink (device : Device) (side : Link → List ObjectFifo) (single : Link → Bool)
    (fifo : ObjectFifo) (found : Option PoolRef) (link : Link) : Option PoolRef :=
  if (side link).any fun other => other.name = fifo.name then
    ((link.pool device).map fun pool =>
      if single link then { pool with segments := 1 } else pool).or found
  else found

/-- The pool of the last link of the device with the fifo at that side. -/
def linkedEnd (device : Device) (side : Link → List ObjectFifo) (single : Link → Bool)
    (fifo : ObjectFifo) : Option PoolRef :=
  device.links.foldl (meetLink device side single fifo) none

def linkedProducerEnd (device : Device) : ObjectFifo → Option PoolRef :=
  linkedEnd device Link.outs Link.isDistribute

def linkedConsumerEnd (device : Device) : ObjectFifo → Option PoolRef :=
  linkedEnd device Link.ins Link.isJoin

def registeredPool (device : Device) (fifo : ObjectFifo) (tile : Tile) : Option PoolRef :=
  let names := ((device.registered.filter fun reg => reg.fifo = fifo.name ∧ reg.tile = tile).map
    RegisteredBuffers.buffers).sum
  if names = 0 then none else some ⟨tile, names, none, 1⟩

/-! ## Ends -/

inductive Role where
  | fill
  | drain
  deriving DecidableEq

/-- `aie.objectfifo.dma_endpoint` with its pool. -/
structure DmaEndpoint where
  role : Role
  pool : PoolRef
  iterCount : Option ℕ

inductive End where
  | dma (endpoint : DmaEndpoint)
  | route

def createDmaEndpoint (ref : PoolRef) (role : Role) (fifo : ObjectFifo) : DmaEndpoint where
  role := role
  pool := ref
  iterCount := fifo.iterCount.map fun iterations =>
    match role with
    | .drain => iterations
    | .fill => iterations * fifo.repeatCount.getD 1

/-- The port of the core stream an end is wired to; `index` is `0` for the producer. -/
def ObjectFifo.streamPort (fifo : ObjectFifo) (index : ℕ) : Option ℕ :=
  if fifo.aieStream = some index ∨ fifo.aieStream = some 2 then fifo.aieStreamPort else none

def sourcePool (device : Device) (fifo : ObjectFifo) : Option PoolRef :=
  match linkedProducerEnd device fifo with
  | some ref => some ref
  | none =>
    if device.isShimTile fifo.producerTile then
      if fifo.plio then none else registeredPool device fifo fifo.producerTile
    else if (fifo.streamPort 0).isSome then none
    else
      let depth := if fifo.hasInitValues then fifo.size 0
        else objectCountOn device fifo.producerTile fifo
      some ⟨fifo.producerTile, depth, fifo.repeatCount, 1⟩

/-- The pool of a consumer without a link and not on a shim tile. -/
def consumerPool (device : Device) (fifo : ObjectFifo) (consumerIndex : ℕ) (consumerTile : Tile) :
    PoolRef :=
  let depth := match fifo.elemNumber with
    | .perEnd _ => fifo.size (consumerIndex + 1)
    | .single _ => objectCountOn device consumerTile fifo
  ⟨consumerTile, depth, none, 1⟩

/-- The pool of a consumer that meets no link. -/
def unlinkedPool (device : Device) (fifo : ObjectFifo) (consumerIndex : ℕ) (consumerTile : Tile) :
    Option PoolRef :=
  if device.isShimTile consumerTile then
    if fifo.plio then none else registeredPool device fifo consumerTile
  else if (fifo.streamPort 1).isSome then none
  else some (consumerPool device fifo consumerIndex consumerTile)

def destinationPool (device : Device) (fifo : ObjectFifo) (consumerIndex : ℕ)
    (consumerTile : Tile) : Option PoolRef :=
  match linkedConsumerEnd device fifo with
  | some ref =>
    if consumerTile = ref.tile then some ref
    else unlinkedPool device fifo consumerIndex consumerTile
  | none => unlinkedPool device fifo consumerIndex consumerTile

/-- What becomes of a fifo: a shared pool, or an end on either side of a route. -/
inductive SplitFifo where
  | shared (depth : ℕ)
  | dmas (source : End) (destinations : List End)

def sourceEnd (device : Device) (fifo : ObjectFifo) : End :=
  match sourcePool device fifo with
  | some ref => .dma (createDmaEndpoint ref .drain fifo)
  | none => .route

def destinationEnd (device : Device) (fifo : ObjectFifo) (consumerIndex : ℕ)
    (consumerTile : Tile) : End :=
  match destinationPool device fifo consumerIndex consumerTile with
  | some ref => .dma (createDmaEndpoint ref .fill fifo)
  | none => .route

def splitFifo (device : Device) (fifo : ObjectFifo) : SplitFifo :=
  if device.requiresDMAs fifo then
    .dmas (sourceEnd device fifo) (fifo.consumerTiles.zipIdx.map fun consumer =>
      destinationEnd device fifo consumer.2 consumer.1)
  else
    .shared ((((linkedProducerEnd device fifo).or (linkedConsumerEnd device fifo)).map
      PoolRef.depth).getD (sharedObjectCount fifo))

end MlirAie.Fifo.Split
