import MlirAie.Bd.GuardBuilder
import MlirAie.Target.Model

/-!
# Sizes and strides of a buffer descriptor

The encoder of a descriptor's wraps and steps, one algorithm over a policy, and the checks constant
sizes and strides pass. Arrays are innermost first: d0, d1, d2 and the iteration dimension d3.

* `StridePolicy`: the arithmetic of the encoder, on constants or on runtime values;
* `encodeHardwareStridesWraps`: the encoder;
* `verifyStridesWraps`: the checks, in order, each with its message.
-/

namespace MlirAie.Bd

def bdGranuleDivisor (elemWidth addressGranularity : ℕ) : ℕ :=
  addressGranularity / Nat.gcd elemWidth addressGranularity

/-- `value * elemWidth` is a whole number of granules. -/
def isConstMultipleOfGranule (value : ℤ) (elemWidth addressGranularity : ℕ) : Bool :=
  (value * elemWidth).tmod addressGranularity == 0

/-! ## The encoder -/

instance neZeroDims : NeZero (4 : ℕ) := ⟨by decide⟩

structure StridePolicy (V : Type) where
  cst : ℕ → V
  mul : V → ℕ → V
  div : V → ℕ → V
  sub : V → ℕ → V
  selectGT1 : V → V → V → V
  selectGT0 : V → V → V → V
  selectLt : V → V → V → V → V

def ConstStridePolicy : StridePolicy ℤ where
  cst c := c
  mul v c := v * c
  div v c := v.tdiv c
  sub v c := v - c
  selectGT1 cond t e := if cond > 1 then t else e
  selectGT0 cond t e := if cond > 0 then t else e
  selectLt a b t e := if a < b then t else e

def SsaStridePolicy : StridePolicy I64 where
  cst c := GuardBuilder.cst c
  mul v c := v * GuardBuilder.cst c
  div v c := v / GuardBuilder.cst c
  sub v c := v - GuardBuilder.cst c
  selectGT1 cond t e := if (GuardBuilder.cst 1).ult cond then t else e
  selectGT0 cond t e := if (GuardBuilder.cst 0).ult cond then t else e
  selectLt a b t e := if a.ult b then t else e

/-- Scaled to granules and biased: a stored `0` means one granule. -/
def biasedStride {V : Type} (p : StridePolicy V) (elemWidth addressGranularity : ℕ) (inStride : V) :
    V :=
  p.sub (p.div (p.mul inStride elemWidth) addressGranularity) 1

def encodeHardwareStridesWraps {V : Type} (p : StridePolicy V) (elemWidth addressGranularity : ℕ)
    (inputSizes inputStrides : Fin 4 → V) : (Fin 4 → V) × (Fin 4 → V) :=
  let biased := biasedStride p elemWidth addressGranularity
  let size0 := p.div (p.mul (inputSizes 0) elemWidth) addressGranularity
  let stride0 :=
    if elemWidth > addressGranularity then p.cst 0
    else p.selectLt (p.mul (inputStrides 0) elemWidth) (p.cst addressGranularity) (p.cst 0)
      (biased (inputStrides 0))
  let stride1 := p.selectGT1 (inputSizes 1) (biased (inputStrides 1)) (p.cst 0)
  let stride2 := p.selectGT1 (inputSizes 2) (biased (inputStrides 2)) (p.cst 0)
  -- a zero-stride repeat leaves the iteration stride at 0
  let size3 := p.selectGT1 (inputSizes 3) (p.sub (inputSizes 3) 1) (p.cst 0)
  let stride3 := p.selectGT1 (inputSizes 3)
    (p.selectGT0 (inputStrides 3) (biased (inputStrides 3)) (p.cst 0)) (p.cst 0)
  (![size0, inputSizes 1, inputSizes 2, size3], ![stride0, stride1, stride2, stride3])

def getHardwareStridesWraps (tm : AIETargetModel) (elemWidth : ℕ)
    (inputSizes inputStrides : Fin 4 → ℤ) : (Fin 4 → ℤ) × (Fin 4 → ℤ) :=
  if inputSizes 0 = 0 then (fun _ => 0, fun _ => 0)
  else encodeHardwareStridesWraps ConstStridePolicy elemWidth tm.getAddressGenGranularity
    inputSizes inputStrides

/-! ## The checks -/

/-- A check with its message. -/
def require (cond : Bool) (message : String) : Except String Unit :=
  if cond then .ok () else .error message

def outOfRange (what : String) (dim : ℕ) (written encoded lo hi : ℤ) : String :=
  what ++ " " ++ toString dim ++ " is " ++ toString written ++ " (encoded as " ++ toString encoded
    ++ "), which exceeds the [" ++ toString lo ++ ":" ++ toString hi ++ "] range."

/-- The longest iteration dimension: a zero stride there is a pure repeat, whose count the queue
push carries. -/
def maxCount (tm : AIETargetModel) (tile : AIETileType) (stride3 : ℤ) : ℤ :=
  if stride3 = 0 then tm.getMaxRepeatCount + 1 else 2 ^ tm.getDmaBdIterBits tile

def verifyStridesWraps (tm : AIETargetModel) (elemWidth : ℕ) (tileCol tileRow : ℤ)
    (inputSizes inputStrides hardwareSizes hardwareStrides : Fin 4 → ℤ)
    (skipTransformationChecks : Bool) : Except String Unit := do
  let addressGranularity := tm.getAddressGenGranularity
  let tile := tm.getTileType tileCol tileRow
  require (tm.isCoreTile tileCol tileRow || tm.isMemTile tileCol tileRow ||
      tm.isShimNOCTile tileCol tileRow)
    ("Unsupported tile type at (" ++ toString tileCol ++ ", " ++ toString tileRow ++
      ") Must be ShimNOC, Mem or Core.")
  for i in List.finRange 4 do
    require (0 < inputSizes i) ("Size " ++ toString i ++ " must be a positive integer.")
  require (isConstMultipleOfGranule (inputSizes 0) elemWidth addressGranularity)
    ("Transfer sizes must be multiples of " ++ toString (addressGranularity / 8) ++ " bytes. " ++
      toString (inputSizes 0) ++ " elements at " ++ toString (elemWidth / 8) ++
      " bytes each equal " ++ toString ((inputSizes 0 * elemWidth).tdiv 8) ++
      " bytes, which is not divisible by " ++ toString (addressGranularity / 8) ++ ". ")
  for i in ([0, 1, 2] : List (Fin 4)) do
    require (!(inputSizes i > 1 && inputStrides i < 1))
      ("Stride " ++ toString i ++ " must be a positive integer.")
  require (!(inputSizes 3 > 1 && inputStrides 3 < 0)) "Stride 3 must be a non-negative integer."
  for i in List.finRange 4 do
    -- a unit innermost stride is the contiguous case, whose size was just checked
    require ((i == 0 && inputStrides i == 1) ||
        isConstMultipleOfGranule (inputStrides i) elemWidth addressGranularity)
      ("Stride " ++ toString i ++ " is " ++ toString (inputStrides i) ++ " elements * " ++
        toString (elemWidth / 8) ++ " bytes = " ++
        toString ((inputStrides i * elemWidth).tdiv 8) ++
        " bytes, which is not divisible by " ++ toString (addressGranularity / 8) ++ ". ")
  require (!(elemWidth != addressGranularity && inputSizes 0 > 1 && inputStrides 0 != 1))
    ("Stride 0 is " ++ toString (inputStrides 0) ++ " elements, but must be 1 for " ++
      toString (elemWidth / 8) ++ "-byte elements: the DMA moves whole " ++
      toString (addressGranularity / 8) ++ "-byte words.")
  let maxWrap : ℤ := 2 ^ tm.getDmaBdWrapBits tile - 1
  let maxStep : ℤ := 2 ^ tm.getDmaBdStepBits tile
  for dim in ([0, 1] : List (Fin 4)) do
    require (skipTransformationChecks || hardwareSizes dim ≤ maxWrap)
      (outOfRange "Size" dim (inputSizes dim) (hardwareSizes dim) 0 maxWrap)
  let pureRepeat := inputStrides 3 == 0
  require (inputSizes 3 ≤ maxCount tm tile (inputStrides 3))
    ((if pureRepeat then "repeat count " else "iteration count ") ++ toString (inputSizes 3) ++
      " exceeds the [1:" ++ toString (maxCount tm tile (inputStrides 3)) ++ "] range.")
  for dim in ([0, 1, 2] : List (Fin 4)) do
    require (hardwareStrides dim ≤ maxStep - 1)
      (outOfRange "Stride" dim (inputStrides dim) (hardwareStrides dim) 1 maxStep)
  require (!(hardwareStrides 3 > maxStep - 1 && hardwareSizes 3 > 0))
    (outOfRange "Stride" 3 (inputStrides 3) (hardwareStrides 3) 1 maxStep)

/-! ## Transfers lowered as a length -/

/-- No data layout transformation: `[*, 1, 1, len]` with strides `[*, 0, 0, 1]`. -/
def isLinearTransfer (sizes strides : Fin 4 → ℤ) : Bool :=
  sizes 1 == 1 && sizes 2 == 1 && strides 0 == 1 && strides 1 == 0 && strides 2 == 0

def isContiguousTransfer (sizes strides : Fin 4 → ℤ) : Bool :=
  if strides 0 ≠ 1 then false
  else if sizes 1 > 1 ∧ strides 1 ≠ sizes 0 then false
  else if sizes 2 > 1 ∧ strides 2 ≠ sizes 0 * sizes 1 then false
  else true

def isLinearModeTransfer (tm : AIETargetModel) (col row : ℤ) (sizes strides : Fin 4 → ℤ) : Bool :=
  isLinearTransfer sizes strides ||
    (tm.isShimNOCTile col row && isContiguousTransfer sizes strides)

end MlirAie.Bd
