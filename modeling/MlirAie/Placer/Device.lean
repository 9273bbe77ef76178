import MlirAie.Target.Model

/-!
# Devices as the placers see them

* `TileID`, `TargetModel`: positions, and what a placer asks of a device;
* `TargetModel.getSharedMemory`: the module that two tiles share;
* `Tile`, `LogicalTileOp`: the ends of connections, and the tiles that are to be placed.
-/

namespace MlirAie.Placer

/-- A column and a row, which may lie outside of the array. -/
structure TileID where
  col : ℤ
  row : ℤ
deriving DecidableEq, Repr

inductive Arch
  | AIE1
  | AIE2
deriving DecidableEq, Repr

/-- The queries a placer makes of a target. -/
structure TargetModel where
  arch : Arch
  columns : ℕ
  rows : ℕ
  getTileType : TileID → AIETileType
  /-- the DMA channels of a tile, in and out -/
  getDMACapacity : TileID → ℤ × ℤ
  getLocalMemorySize : ℤ
  getMemTileSize : ℤ
  getMemTileLoadStoreBusWidth : ℤ
  getComputeTileLoadStoreBusWidth : ℤ
  getComputeTileMaxVectorAlignBits : ℤ

/-! ## Neighbours -/

def isInternal (src dst : TileID) : Bool := src.col = dst.col ∧ src.row = dst.row

/-- The source is west of the destination, in the source's words. -/
def isWest (src dst : TileID) : Bool := src.col = dst.col + 1 ∧ src.row = dst.row

def isEast (src dst : TileID) : Bool := src.col = dst.col - 1 ∧ src.row = dst.row

def isNorth (src dst : TileID) : Bool := src.col = dst.col ∧ src.row = dst.row - 1

def isSouth (src dst : TileID) : Bool := src.col = dst.col ∧ src.row = dst.row + 1

/-- Which of two tiles' memory modules both of them can address. -/
inductive SharedMemory
  | None
  | First
  | Second
  | Either
deriving DecidableEq, Repr

namespace TargetModel

variable (tm : TargetModel)

def isMemTile (t : TileID) : Bool := tm.getTileType t = .MemTile

def isShimNOCorPLTile (t : TileID) : Bool :=
  tm.getTileType t = .ShimNOCTile || tm.getTileType t = .ShimPLTile

/-- `AIE1TargetModel::isLegalMemAffinity`. -/
def AIE1.isLegalMemAffinity (core mem : TileID) : Bool :=
  let isEvenRow := core.row % 2 = 0
  let isMemWest := (isWest core mem && !isEvenRow) || (isInternal core mem && isEvenRow)
  let isMemEast := (isEast core mem && isEvenRow) || (isInternal core mem && !isEvenRow)
  isSouth core mem || isNorth core mem || isMemWest || isMemEast

/-- `AIE2TargetModel::isLegalMemAffinity`. -/
def AIE2.isLegalMemAffinity (core mem : TileID) : Bool :=
  if tm.isMemTile core then isEast core mem || isInternal core mem || isWest core mem
  else (isSouth core mem && !tm.isMemTile mem) || isNorth core mem || isWest core mem ||
    isInternal core mem

def isLegalMemAffinity (core mem : TileID) : Bool :=
  match tm.arch with
  | .AIE1 => AIE1.isLegalMemAffinity core mem
  | .AIE2 => AIE2.isLegalMemAffinity tm core mem

def getSharedMemory (a b : TileID) : SharedMemory :=
  if tm.isShimNOCorPLTile a ≠ tm.isShimNOCorPLTile b ∨ tm.isMemTile a ≠ tm.isMemTile b then .None
  else
    let aReachesB := tm.isLegalMemAffinity a b
    let bReachesA := tm.isLegalMemAffinity b a
    if aReachesB && bReachesA then .Either
    else if bReachesA then .First
    else if aReachesB then .Second
    else .None

variable {tm} {a b t : TileID}

theorem isLegalMemAffinity_self (tm : TargetModel) (t : TileID) :
    tm.isLegalMemAffinity t t = true := by
  have hself : isInternal t t = true := by simp [isInternal]
  unfold isLegalMemAffinity
  cases tm.arch with
  | AIE1 =>
    unfold AIE1.isLegalMemAffinity
    rw [hself]
    by_cases hrow : t.row % 2 = 0
    · simp [hrow]
    · simp [hrow]
  | AIE2 =>
    unfold AIE2.isLegalMemAffinity
    rw [hself]
    split_ifs
    · simp
    · simp

theorem getSharedMemory_self (tm : TargetModel) (t : TileID) : tm.getSharedMemory t t = .Either := by
  unfold getSharedMemory
  rw [isLegalMemAffinity_self]
  simp

theorem getSharedMemory_eq_none_iff (hshim : tm.isShimNOCorPLTile a = tm.isShimNOCorPLTile b)
    (hmem : tm.isMemTile a = tm.isMemTile b) :
    tm.getSharedMemory a b = .None ↔
      tm.isLegalMemAffinity a b = false ∧ tm.isLegalMemAffinity b a = false := by
  unfold getSharedMemory
  rw [if_neg (by simp [hshim, hmem])]
  cases tm.isLegalMemAffinity a b <;> cases tm.isLegalMemAffinity b a <;> simp

theorem getSharedMemory_core (ha : tm.getTileType a = .CoreTile)
    (hb : tm.getTileType b = .CoreTile) :
    tm.getSharedMemory a b = .None ↔
      tm.isLegalMemAffinity a b = false ∧ tm.isLegalMemAffinity b a = false :=
  getSharedMemory_eq_none_iff (by simp [isShimNOCorPLTile, ha, hb]) (by simp [isMemTile, ha, hb])

end TargetModel

/-! ## Tiles of a design -/

/-- The end of a connection: a logical tile, by its position in the device, or a placed one. -/
inductive Tile
  | logical (op : ℕ)
  | placed (pos : TileID)
deriving DecidableEq, Repr

def Tile.logical? : Tile → Option ℕ
  | logical op => some op
  | placed _ => none

structure LogicalTileOp where
  tileType : AIETileType
  col : Option ℤ
  row : Option ℤ
deriving Repr

def LogicalTileOp.satisfiesConstraints (lt : LogicalTileOp) (pos : TileID) : Bool :=
  lt.col.all (· = pos.col) && lt.row.all (· = pos.row)

end MlirAie.Placer
