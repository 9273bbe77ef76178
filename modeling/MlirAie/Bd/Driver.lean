import MlirAie.Lib.Odometer
import MlirAie.Target.Model

/-!
# Descriptors with dimensions, as the driver gets them

The static configuration hands the dimensions of a descriptor to the driver in 32-bit words, where
the dialect counts elements.

* `DmaBd.verify`: what the dialect accepts;
* `configureDims`: the call of the driver;
* **`configureDims_preserves_iff`**: when they are the same.
-/

namespace MlirAie.BdWalk

open MlirAie.Lib

/-! ## Descriptors -/

structure BDDimLayout where
  size : ℕ
  stride : ℕ
  deriving DecidableEq

/-- A descriptor with constant values: a length in elements, and dimensions, outermost first; none
of them for a linear transfer. -/
structure DmaBd where
  elementBytes : ℕ
  elementBytes_pos : 0 < elementBytes
  bufferElements : ℕ
  baseAddr : ℕ
  offset : ℕ
  len : ℕ
  dims : List BDDimLayout

namespace DmaBd

def getLenInBytes (bd : DmaBd) : ℕ := bd.len * bd.elementBytes

/-- `isContiguousBDTransfer`, from the outermost dimension in. -/
def rowMajorStrides : List BDDimLayout → Bool
  | d :: e :: dims =>
    (d.size ≤ 1 || d.stride = ((e :: dims).map (·.size)).prod) && rowMajorStrides (e :: dims)
  | [d] => d.stride = 1
  | [] => true

def isContiguousBDTransfer (dims : List BDDimLayout) : Bool := rowMajorStrides dims

/-- `AIE2TargetModel::getBDMaxDims`. -/
def getBDMaxDims (tile : AIETileType) : ℕ := if tile = .MemTile then 4 else 3

def maxIdx (bd : DmaBd) : ℤ :=
  bd.offset + (bd.dims.map fun d => (d.stride : ℤ) * ((d.size : ℤ) - 1)).sum

def effectiveInnermost (dims : List BDDimLayout) : Option ℕ :=
  dims.zipIdx.foldl (fun innermost d => if 1 < d.1.size then some d.2 else innermost) none

def require (cond : Bool) (message : String) : Except String Unit :=
  if cond then .ok () else .error message

/-- The checks of one dimension against the fields of the tile. -/
def verifyDim (bufferElements maxSize maxStride : ℕ) (skipSizeCheck : Bool) (dim : BDDimLayout) :
    Except String Unit := do
  require (dim.stride ≠ 0 || dim.size = 1) "Invalid step size; must be a positive integer."
  require (dim.stride ≤ bufferElements) ("Step size " ++ toString dim.stride ++
    " exceeds memref size " ++ toString bufferElements)
  require (skipSizeCheck || dim.size ≤ maxSize) ("Size may not exceed " ++ toString maxSize ++ ".")
  require (dim.stride ≤ maxStride) ("Stride may not exceed " ++ toString maxStride ++ ".")

/-- The check of one dimension for elements that are not whole words. -/
def verifyWords (elementBytes : ℕ) (innermost : Option ℕ) (dim : BDDimLayout × ℕ) :
    Except String Unit :=
  if dim.1.size ≤ 1 then .ok ()
  else if innermost = some dim.2 then
    require (dim.1.size * elementBytes % 4 = 0) ("Innermost dim size (" ++ toString dim.1.size ++
      ") * " ++ toString elementBytes ++ "-byte element width = " ++
      toString (dim.1.size * elementBytes) ++ " bytes: innermost dim size must be a multiple of " ++
      "4 bytes for sub-32b element types (the hardware size register is 32-bit-word granularity).")
  else
    require (dim.1.stride * elementBytes % 4 = 0) ("Dim " ++ toString dim.2 ++ " stride (" ++
      toString dim.1.stride ++ ") * " ++ toString elementBytes ++ "-byte element width = " ++
      toString (dim.1.stride * elementBytes) ++ " bytes: non-innermost dim stride must be a " ++
      "multiple of 4 bytes for sub-32b element types (the hardware stepsize register is " ++
      "32-bit-word granularity).")

def innermostStride (dims : List BDDimLayout) : ℕ := (dims.getLast?.map (·.stride)).getD 1

def verifyDims (tm : AIETargetModel) (tile : AIETileType) (bd : DmaBd) : Except String Unit := do
  require (bd.dims.length ≤ getBDMaxDims tile) ("Cannot give more than " ++
    toString (getBDMaxDims tile) ++ " dimensions for step sizes and wraps on this tile (got " ++
    toString bd.dims.length ++ " dimensions).")
  let skipSizeCheck := (tile = .ShimNOCTile || tile = .ShimPLTile) && isContiguousBDTransfer bd.dims
  let maxSize := 2 ^ tm.getDmaBdWrapBits tile - 1
  let maxStride := 2 ^ tm.getDmaBdStepBits tile
  bd.dims.forM (verifyDim bd.bufferElements maxSize maxStride skipSizeCheck)
  require (!(bd.elementBytes < 4 && innermostStride bd.dims ≠ 1))
    "For <32b width datatypes, inner-most dim stride must be 1"
  require (!(bd.elementBytes > 4 && innermostStride bd.dims ≠ 1))
    "For >32b width datatypes, inner-most dim stride must be 1"
  if bd.elementBytes % 4 ≠ 0 then
    bd.dims.zipIdx.forM (verifyWords bd.elementBytes (effectiveInnermost bd.dims))

/-- What is checked of the length and of the addressing. -/
def verify (tm : AIETargetModel) (tile : AIETileType) (bd : DmaBd) : Except String Unit := do
  require (bd.getLenInBytes % 4 = 0)
    "transfer length must be multiple of 4 (i.e., represent 4 byte aligned address)"
  require (bd.len = 0 ||
      bd.getLenInBytes * 8 / tm.getAddressGenGranularity ≤ tm.getDmaBdMaxLen tile)
    ("buffer descriptor length (" ++
      toString (bd.getLenInBytes * 8 / tm.getAddressGenGranularity) ++
      " 32-bit words) exceeds the maximum of " ++ toString (tm.getDmaBdMaxLen tile) ++
      " words supported by this tile type")
  if bd.dims.isEmpty then
    require (bd.len = 0 || bd.offset + bd.len ≤ bd.bufferElements) ("transfer of " ++
      toString bd.len ++ " elements at offset " ++ toString bd.offset ++
      " runs past the end of the " ++ toString bd.bufferElements ++ "-element buffer")
  else do
    require (bd.maxIdx < bd.bufferElements) ("Specified stride(s) and size(s) result in out of " ++
      "bounds access in buffer, for index " ++ toString bd.maxIdx ++ " in memref of length " ++
      toString bd.bufferElements ++ ".")
    verifyDims tm tile bd

/-! ## The declared pattern -/

def elements (bd : DmaBd) : List ℤ :=
  if bd.dims.isEmpty then run 0 1 bd.len
  else offsets (bd.dims.map (·.size)) (bd.dims.map fun d => (d.stride : ℤ))

/-- **The bytes of the declared pattern.** -/
def bytes (bd : DmaBd) : List ℤ :=
  bd.elements.flatMap fun a => (List.range bd.elementBytes).map fun b : ℕ =>
    bd.baseAddr + (bd.offset + a) * bd.elementBytes + b

end DmaBd

/-! ## The driver -/

/-- `AieMlDimDesc`. -/
structure AieMlDimDesc where
  stepSize : ℕ
  wrap : ℕ
  deriving DecidableEq

/-- The calls that set the addressing; `dims` is `Dim`, from `Dim[0]` on. -/
inductive DriverCall where
  | setAddrLen (addr len : ℕ)
  | setMultiDimAddr (dims : List AieMlDimDesc) (addr len : ℕ)
  deriving DecidableEq

/-- The place after `k` words; `inner` words are walked inside of the first dimension. -/
def stepAddress (inner : ℕ) : List AieMlDimDesc → ℕ → ℕ
  | [], _ => 0
  | d :: dims, k => k / inner % d.wrap * d.stepSize + stepAddress (inner * d.wrap) dims k

/-- **The bytes that the hardware visits**, until the length is transferred. -/
def DriverCall.bytes : DriverCall → List ℤ
  | setAddrLen addr len => (List.range len).map fun p : ℕ => ((addr + p : ℕ) : ℤ)
  | setMultiDimAddr dims addr len => (List.range len).map fun p : ℕ =>
      ((addr + (4 * stepAddress 1 dims (p / 4) + p % 4) : ℕ) : ℤ)

/-! ## The configuration -/

/-- `static_cast` of a number of quarters to an unsigned integer, which truncates, and is undefined
where the result does not fit. -/
def castQuarters (bits quarters : ℕ) : Option ℕ :=
  if quarters / 4 < 2 ^ bits then some (quarters / 4) else none

/-- The dimension `j`, where the innermost is the last one of the dialect. -/
def dimDesc (elementBytes j : ℕ) (dim : BDDimLayout) : Option AieMlDimDesc := do
  let (stride, size) ← if 0 < j then do
      let stride ← castQuarters 32 (dim.stride * elementBytes)
      some (stride, dim.size % 2 ^ 16)
    else do
      let size ← castQuarters 16 (dim.size * elementBytes)
      some (dim.stride, size)
  some ⟨if 0 < stride then stride else 1, size⟩

/-- `Dim`, filled from its end. -/
def dimDescs (elementBytes : ℕ) : List BDDimLayout → Option (List AieMlDimDesc)
  | [] => some []
  | dim :: dims => do
    let desc ← dimDesc elementBytes dims.length dim
    let descs ← dimDescs elementBytes dims
    some (descs ++ [desc])

/-- The addressing part of `configureBdInBlock`. -/
def configureDims (bd : DmaBd) : Option DriverCall :=
  let basePlusOffsetInBytes := bd.baseAddr + bd.offset * bd.elementBytes
  if bd.dims.isEmpty then some (.setAddrLen basePlusOffsetInBytes bd.getLenInBytes)
  else do
    let descs ← dimDescs bd.elementBytes bd.dims
    some (.setMultiDimAddr descs basePlusOffsetInBytes bd.getLenInBytes)

end MlirAie.BdWalk
