import Mathlib

/-!
# The target model

What the lowerings read of a device: its tile types, the register layout of a buffer descriptor,
the per-channel DMA queue and status register, and the tile memories.

* `DmaBdField`, `DmaBdLayout`: the bit fields of a descriptor, and where each one sits;
* `AIETargetModel`: the queries of the target model, one field each;
* `makeAIE2ShimBdLayout`, `makeAIE2MemTileBdLayout`, `makeAIE2CoreTileBdLayout` and
  `AIE2TargetModel`: the AIE2 family, whose field limits are read off its own layouts.
-/

namespace MlirAie

inductive AIETileType
  | CoreTile
  | MemTile
  | ShimNOCTile
  | ShimPLTile
deriving DecidableEq, Repr

inductive DMAChannelDir
  | S2MM
  | MM2S
deriving DecidableEq, Repr

def DMAChannelDir.toInt : DMAChannelDir → ℤ
  | .S2MM => 0
  | .MM2S => 1

/-- `{col, row, direction, channel}`: one DMA channel and its task queue. -/
structure ChannelKey where
  col : ℤ
  row : ℤ
  direction : ℤ
  channel : ℤ
deriving DecidableEq, Repr

/-- Bits `[shift, shift + width)` of register `word` of a descriptor's register block. A field a
tile type does not have has width `0`. -/
structure DmaBdField where
  word : ℕ := 0
  shift : ℕ := 0
  width : ℕ := 0
deriving DecidableEq, Repr

def DmaBdField.existsField (f : DmaBdField) : Bool := f.width != 0

def DmaBdField.mask (f : DmaBdField) : BitVec 32 :=
  if f.width ≥ 32 then 0xFFFFFFFF else (1 <<< f.width) - 1

def DmaBdField.place (f : DmaBdField) (value : BitVec 64) : BitVec 32 :=
  if f.existsField then (value.truncate 32 &&& f.mask) <<< f.shift else 0

structure DmaBdLayout where
  numWords : ℕ := 0
  bufferLength : DmaBdField := {}
  bufferOffset : DmaBdField := {}
  enablePacket : DmaBdField := {}
  packetType : DmaBdField := {}
  packetId : DmaBdField := {}
  outOfOrderId : DmaBdField := {}
  d0Size : DmaBdField := {}
  d0Stride : DmaBdField := {}
  d1Size : DmaBdField := {}
  d1Stride : DmaBdField := {}
  d2Stride : DmaBdField := {}
  iterationCurrent : DmaBdField := {}
  iterationSize : DmaBdField := {}
  iterationStride : DmaBdField := {}
  d0ZeroBefore : DmaBdField := {}
  d1ZeroBefore : DmaBdField := {}
  d2ZeroBefore : DmaBdField := {}
  d0ZeroAfter : DmaBdField := {}
  d1ZeroAfter : DmaBdField := {}
  d2ZeroAfter : DmaBdField := {}
  burstLength : DmaBdField := {}
  axcache : DmaBdField := {}
  nextBd : DmaBdField := {}
  useNextBd : DmaBdField := {}
  validBd : DmaBdField := {}
  lockRelValue : DmaBdField := {}
  lockRelId : DmaBdField := {}
  lockAcqEnable : DmaBdField := {}
  lockAcqValue : DmaBdField := {}
  lockAcqId : DmaBdField := {}

structure AIETargetModel where
  getTileType : ℤ → ℤ → AIETileType
  getAddressGenGranularity : ℕ
  getDmaBdLayout : AIETileType → Option DmaBdLayout
  getDmaBdMaxLen : AIETileType → ℕ
  getDmaBdWrapBits : AIETileType → ℕ
  getDmaBdStepBits : AIETileType → ℕ
  getDmaBdIterBits : AIETileType → ℕ
  getMaxRepeatCount : ℕ
  getNumBDs : AIETileType → ℕ
  isBdChannelAccessible : ℤ → ℤ → ℕ → ℤ → Bool
  getDmaStatusAddress : ChannelKey → Option (BitVec 32)
  /-- The task-queue occupancy field of the status register; it does not count the running task. -/
  getDmaTaskQueueSizeMask : BitVec 32
  /-- The status bits that are all clear exactly when the channel has finished every push. -/
  getDmaChannelIdleMask : BitVec 32
  getDmaTaskQueueDepth : ChannelKey → ℕ
  getShimBurstEncodingsAndLengths : List (ℕ × ℕ)

namespace AIETargetModel

variable (tm : AIETargetModel)

def isCoreTile (col row : ℤ) : Bool := tm.getTileType col row == .CoreTile
def isMemTile (col row : ℤ) : Bool := tm.getTileType col row == .MemTile
def isShimNOCTile (col row : ℤ) : Bool := tm.getTileType col row == .ShimNOCTile

end AIETargetModel

/-! ## The AIE2 family -/

def makeAIE2ShimBdLayout : DmaBdLayout where
  numWords := 8
  bufferLength := ⟨0, 0, 32⟩
  bufferOffset := ⟨1, 0, 32⟩
  enablePacket := ⟨2, 30, 1⟩
  outOfOrderId := ⟨2, 24, 6⟩
  packetId := ⟨2, 19, 5⟩
  packetType := ⟨2, 16, 3⟩
  d0Size := ⟨3, 20, 10⟩
  d0Stride := ⟨3, 0, 20⟩
  burstLength := ⟨4, 30, 2⟩
  d1Size := ⟨4, 20, 10⟩
  d1Stride := ⟨4, 0, 20⟩
  axcache := ⟨5, 24, 4⟩
  d2Stride := ⟨5, 0, 20⟩
  iterationCurrent := ⟨6, 26, 6⟩
  iterationSize := ⟨6, 20, 6⟩
  iterationStride := ⟨6, 0, 20⟩
  nextBd := ⟨7, 27, 4⟩
  useNextBd := ⟨7, 26, 1⟩
  validBd := ⟨7, 25, 1⟩
  lockRelValue := ⟨7, 18, 7⟩
  lockRelId := ⟨7, 13, 4⟩
  lockAcqEnable := ⟨7, 12, 1⟩
  lockAcqValue := ⟨7, 5, 7⟩
  lockAcqId := ⟨7, 0, 4⟩

def makeAIE2MemTileBdLayout : DmaBdLayout where
  numWords := 8
  enablePacket := ⟨0, 31, 1⟩
  packetType := ⟨0, 28, 3⟩
  packetId := ⟨0, 23, 5⟩
  outOfOrderId := ⟨0, 17, 6⟩
  bufferLength := ⟨0, 0, 17⟩
  d0ZeroBefore := ⟨1, 26, 6⟩
  nextBd := ⟨1, 20, 6⟩
  useNextBd := ⟨1, 19, 1⟩
  bufferOffset := ⟨1, 0, 19⟩
  d0Size := ⟨2, 17, 10⟩
  d0Stride := ⟨2, 0, 17⟩
  d1ZeroBefore := ⟨3, 27, 5⟩
  d1Size := ⟨3, 17, 10⟩
  d1Stride := ⟨3, 0, 17⟩
  d2ZeroBefore := ⟨4, 27, 4⟩
  d2Stride := ⟨4, 0, 17⟩
  d2ZeroAfter := ⟨5, 28, 4⟩
  d1ZeroAfter := ⟨5, 23, 5⟩
  d0ZeroAfter := ⟨5, 17, 6⟩
  iterationCurrent := ⟨6, 23, 6⟩
  iterationSize := ⟨6, 17, 6⟩
  iterationStride := ⟨6, 0, 17⟩
  validBd := ⟨7, 31, 1⟩
  lockRelValue := ⟨7, 24, 7⟩
  lockRelId := ⟨7, 16, 8⟩
  lockAcqEnable := ⟨7, 15, 1⟩
  lockAcqValue := ⟨7, 8, 7⟩
  lockAcqId := ⟨7, 0, 8⟩

def makeAIE2CoreTileBdLayout : DmaBdLayout where
  numWords := 6
  bufferOffset := ⟨0, 14, 14⟩
  bufferLength := ⟨0, 0, 14⟩
  enablePacket := ⟨1, 30, 1⟩
  outOfOrderId := ⟨1, 24, 6⟩
  packetId := ⟨1, 19, 5⟩
  packetType := ⟨1, 16, 3⟩
  d1Stride := ⟨2, 13, 13⟩
  d0Stride := ⟨2, 0, 13⟩
  d1Size := ⟨3, 21, 8⟩
  d0Size := ⟨3, 13, 8⟩
  d2Stride := ⟨3, 0, 13⟩
  iterationCurrent := ⟨4, 19, 6⟩
  iterationSize := ⟨4, 13, 6⟩
  iterationStride := ⟨4, 0, 13⟩
  nextBd := ⟨5, 27, 4⟩
  useNextBd := ⟨5, 26, 1⟩
  validBd := ⟨5, 25, 1⟩
  lockRelValue := ⟨5, 18, 7⟩
  lockRelId := ⟨5, 13, 4⟩
  lockAcqEnable := ⟨5, 12, 1⟩
  lockAcqValue := ⟨5, 5, 7⟩
  lockAcqId := ⟨5, 0, 4⟩

def AIE2.getDmaBdLayout : AIETileType → Option DmaBdLayout
  | .ShimNOCTile => some makeAIE2ShimBdLayout
  | .MemTile => some makeAIE2MemTileBdLayout
  | .CoreTile => some makeAIE2CoreTileBdLayout
  | .ShimPLTile => none

def AIE2.getDmaBdLimits (t : AIETileType) : DmaBdLayout :=
  (AIE2.getDmaBdLayout t).getD makeAIE2ShimBdLayout

/-- The array address of a register at `offset` of a tile. -/
def AIE2.tileAddress (col row : ℤ) (offset : BitVec 32) : BitVec 32 :=
  ((BitVec.ofInt 32 col &&& 0xff#32) <<< 25) ||| ((BitVec.ofInt 32 row &&& 0xff#32) <<< 20) ||| offset

/-- The status register of an AIE2 channel: one word apart per channel, `MM2S` after `S2MM`. -/
def AIE2.getDmaStatusAddress (tileType : ℤ → ℤ → AIETileType) (k : ChannelKey) :
    Option (BitVec 32) :=
  let mm2s (d : BitVec 32) : BitVec 32 := if k.direction = DMAChannelDir.MM2S.toInt then d else 0
  let chan := BitVec.ofInt 32 k.channel * 4
  match tileType k.col k.row with
  | .ShimNOCTile => some (AIE2.tileAddress k.col k.row (0x0001D220 + chan + mm2s 0x8))
  | .MemTile => some (AIE2.tileAddress k.col k.row (0x000A0660 + chan + mm2s 0x20))
  | .CoreTile => some (AIE2.tileAddress k.col k.row (0x0001DF00 + chan + mm2s 0x10))
  | .ShimPLTile => none

def AIE2TargetModel (tileType : ℤ → ℤ → AIETileType) (bursts : List (ℕ × ℕ)) : AIETargetModel where
  getTileType := tileType
  getAddressGenGranularity := 32
  getDmaBdLayout := AIE2.getDmaBdLayout
  getDmaBdMaxLen t := (AIE2.getDmaBdLimits t).bufferLength.mask.toNat
  getDmaBdWrapBits t := (AIE2.getDmaBdLimits t).d0Size.width
  getDmaBdStepBits t := (AIE2.getDmaBdLimits t).d0Stride.width
  getDmaBdIterBits t := (AIE2.getDmaBdLimits t).iterationSize.width
  getMaxRepeatCount := 255
  getNumBDs t := if t = .MemTile then 48 else 16
  isBdChannelAccessible col row bd channel :=
    if tileType col row = .MemTile then
      if channel % 2 = 0 then decide (bd < 24) else decide (bd ≥ 24)
    else true
  getDmaStatusAddress := AIE2.getDmaStatusAddress tileType
  getDmaTaskQueueSizeMask := 0x7 <<< 20
  getDmaChannelIdleMask := (0x7 <<< 20) ||| (1 <<< 19) ||| 0x3C
  getDmaTaskQueueDepth _ := 4
  getShimBurstEncodingsAndLengths := bursts

end MlirAie
