import MlirAie.Placer.Contribution

/-!
# What the annealing placer reads of a design

* `LogicalTileOp.verify`: what is promised of a logical tile;
* `Design`: a device with the buffers and the cores on its tiles, and its cascades;
* `Design.nets`, `Design.fifoBuffers`: the models that the placer builds first.
-/

namespace MlirAie.Placer

/-! ## Positions on the array -/

namespace TargetModel

variable (tm : TargetModel)

def positions : List TileID :=
  (List.range tm.columns).flatMap fun col =>
    (List.range tm.rows).map fun row => ⟨(col : ℕ), (row : ℕ)⟩

/-- `availability.compTiles`. -/
def compTiles : List TileID := tm.positions.filter fun t => tm.getTileType t = .CoreTile

/-- `availability.nonCompTiles`: the memory and shim tiles. -/
def nonCompTiles : List TileID :=
  tm.positions.filter fun t => tm.getTileType t = .MemTile ∨ tm.getTileType t = .ShimNOCTile

variable {tm} {t : TileID}

theorem mem_positions (h : t ∈ tm.positions) :
    (0 ≤ t.col ∧ t.col < tm.columns) ∧ 0 ≤ t.row ∧ t.row < tm.rows := by
  obtain ⟨col, hcol, h⟩ := List.mem_flatMap.1 h
  obtain ⟨row, hrow, rfl⟩ := List.mem_map.1 h
  rw [List.mem_range] at hcol hrow
  exact ⟨⟨by simp, by simpa using hcol⟩, by simp, by simpa using hrow⟩

theorem compTiles_type (h : t ∈ tm.compTiles) : tm.getTileType t = .CoreTile := by
  simpa using (List.mem_filter.1 h).2

end TargetModel

/-- `LogicalTileOp::verify`, and the confinement of its coordinates. -/
def LogicalTileOp.verify (tm : TargetModel) (lt : LogicalTileOp) : Bool :=
  lt.col.all (fun col : ℤ => 0 ≤ col ∧ col < tm.columns) &&
    lt.row.all (fun row : ℤ => 0 ≤ row ∧ row < tm.rows) &&
    tm.positions.any (fun t => tm.getTileType t = lt.tileType) &&
    match lt.col, lt.row with
    | some col, some row => tm.getTileType ⟨col, row⟩ = lt.tileType
    | _, _ => true

/-! ## Designs -/

structure BufferOp where
  tile : Tile
  allocationSize : ℤ
  aligned : Bool
deriving Repr

structure CoreOp where
  tile : Tile
  effectiveStackSize : ℤ
deriving Repr

/-- A device before its logical tiles are placed, as the verifiers accept it. -/
structure Design extends Device where
  buffers : List BufferOp
  cores : List CoreOp
  /-- the source and the destination of each cascade -/
  cascadeFlows : List (Tile × Tile)
  verified : ∀ lt ∈ logicalTiles, lt.verify target = true
  core_isCore : ∀ core ∈ cores, ∀ op, core.tile = .logical op → toDevice.isCore op = true
  columns_lt : target.columns < 2 ^ 31
  rows_lt : target.rows < 2 ^ 31

namespace SAConfig

def multicastThreshold : ℕ := 4
def multicastMultiplier : ℤ := 2
def maxMoveAttempts : ℕ := 20

end SAConfig

/-- The ends of an objectFIFO, whose wires the placer keeps short. -/
structure NetInfo where
  endpoints : List ℕ
  isMulticast : Bool
deriving Repr

instance : Inhabited NetInfo := ⟨[], false⟩

instance : Inhabited FifoBufferInfo :=
  ⟨{ producer := none, consumers := [], delegate := none, producerSizeBytes := 0
     consumerSizeBytes := 0, producerDepth := 0, consumerDepths := [], producerDMADepth := 0
     consumerDMADepths := [], forcesDMA := false, linkSharedProd := false }⟩

def FifoBufferInfo.tiles (fb : FifoBufferInfo) : List ℕ :=
  fb.producer.toList ++ fb.consumers ++ (fb.delegate.bind Tile.logical?).toList

namespace Design

variable (d : Design)

/-- `buildNetModel`: nets of one end are left out. -/
def nets : List NetInfo :=
  (d.objectFifos.map fun ofOp =>
    { endpoints := (ofOp.producerTile :: ofOp.consumerTiles).filterMap Tile.logical?
      isMulticast := ofOp.consumerTiles.length > SAConfig.multicastThreshold }).filter
    fun net => 2 ≤ net.endpoints.length

def net (netIdx : ℕ) : NetInfo := d.nets.getD netIdx default

def tileToNetIndices (tile : ℕ) : List ℕ :=
  (List.range d.nets.length).flatMap fun netIdx =>
    ((d.net netIdx).endpoints.filter (· = tile)).map fun _ => netIdx

def fifoBuffers : List FifoBufferInfo := d.objectFifos.map d.buildFifoBufferInfo

def fifoBuffer (fifoIdx : ℕ) : FifoBufferInfo := d.fifoBuffers.getD fifoIdx default

def staticBufferSize (op : ℕ) : ℤ :=
  ((d.buffers.filter fun b => b.tile = .logical op).map fun b =>
    if b.aligned then
      alignedBufferBytes d.target ((d.tileType op).getD .CoreTile) b.allocationSize
    else b.allocationSize).sum

/-- The stack of the core on a tile. -/
def stackSize (op : ℕ) : ℤ :=
  ((d.cores.reverse.find? fun core => core.tile = .logical op).map fun core =>
    alignedBufferBytes d.target .CoreTile core.effectiveStackSize).getD 0

end Design

end MlirAie.Placer
