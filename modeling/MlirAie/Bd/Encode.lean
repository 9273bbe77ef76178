import MlirAie.Bd.Stride

/-!
# Encoding a descriptor from runtime operands

`encodeBdCommon` emits guards for the sizes, strides and length of a descriptor and the arithmetic
of its fields, on operands that are constants or runtime values. Arrays are innermost first.

* `Operand`, `BdRequest`: the operands, and what a descriptor is encoded for;
* `BdRequest.encodeBdCommon`: the encoded fields where every guard holds;
* `EncodedBd.runtimeFields`: the fields that `packBdWords` masks and places.
-/

namespace MlirAie.Bd

open GuardBuilder

/-- An operand as a 64-bit value, and whether it is a constant of the program. -/
structure Operand where
  value : I64
  constant : Bool := false
deriving DecidableEq, Repr

def getConstantIntValue (v : Operand) : Option ℤ := if v.constant then some v.value.toInt else none

def constEq (v : Operand) (c : ℤ) : Bool := getConstantIntValue v == some c

structure BdRequest where
  tm : AIETargetModel
  tileCol : ℤ
  tileRow : ℤ
  sizes : Fin 4 → Operand
  strides : Fin 4 → Operand
  elemWidth : ℕ
  lenElems : Option Operand := none

/-- The fields of a descriptor, ready to pack. -/
structure EncodedBd where
  hwS : Fin 4 → BitVec 32
  hwT : Fin 4 → BitVec 32
  bufLen : BitVec 32
  iterSizeField : BitVec 32
  repeatCount : BitVec 32
  isLinear : Bool

/-- A condition, and the message where it does not hold. -/
structure Guard where
  cond : Bool
  message : String

def checkAll : List Guard → Except String Unit
  | [] => .ok ()
  | g :: gs => do
    check g.cond g.message
    checkAll gs

namespace BdRequest

variable (r : BdRequest)

def tile : AIETileType := r.tm.getTileType r.tileCol r.tileRow
def gran : ℕ := r.tm.getAddressGenGranularity

def inS (i : Fin 4) : I64 := (r.sizes i).value
def inT (i : Fin 4) : I64 := (r.strides i).value

/-! ## Linear mode -/

def knownLinear : Bool :=
  constEq (r.sizes 1) 1 && constEq (r.sizes 2) 1 && constEq (r.strides 0) 1 &&
    constEq (r.strides 1) 0 && constEq (r.strides 2) 0

/-- A contiguous scan, as far as constants tell. -/
def knownContiguous : Bool :=
  let sz0 := getConstantIntValue (r.sizes 0)
  let d1sz := getConstantIntValue (r.sizes 1)
  let prod01 := sz0.bind fun a => d1sz.map fun b => a * b
  constEq (r.strides 0) 1 &&
    (d1sz == some 1 || (sz0.isSome && getConstantIntValue (r.strides 1) == sz0)) &&
    (constEq (r.sizes 2) 1 || (prod01.isSome && getConstantIntValue (r.strides 2) == prod01))

/-- The three inner dimensions are left to the buffer length. -/
def isLinear : Bool :=
  r.knownLinear || (r.tm.isShimNOCTile r.tileCol r.tileRow && r.knownContiguous)

/-! ## Limits -/

def wrapMax : ℕ := 2 ^ r.tm.getDmaBdWrapBits r.tile - 1
def maxLen : ℕ := r.tm.getDmaBdMaxLen r.tile
def maxStride : ℕ := 2 ^ r.tm.getDmaBdStepBits r.tile * r.gran / r.elemWidth
def maxIterations : ℕ := 2 ^ r.tm.getDmaBdIterBits r.tile
def maxRepeats : ℕ := r.tm.getMaxRepeatCount + 1

/-- The limit of a size; of d0 in granules. -/
def wrapLimit : ℕ := if r.isLinear then r.maxLen else r.wrapMax

def sizeHi : Fin 4 → ℕ :=
  ![r.wrapLimit * r.gran / r.elemWidth, r.wrapLimit, r.maxLen, r.maxRepeats]

/-- What is known of a size when the guards are built. -/
def sizeMax (i : Fin 4) : ℕ := if (r.sizes i).constant then (r.inS i).toNat else r.sizeHi i

def divisor : ℕ := bdGranuleDivisor r.elemWidth r.gran

/-! ## Hardware values -/

def hwS : Fin 4 → I64 :=
  (encodeHardwareStridesWraps SsaStridePolicy r.elemWidth r.gran r.inS r.inT).1

def hwT : Fin 4 → I64 :=
  (encodeHardwareStridesWraps SsaStridePolicy r.elemWidth r.gran r.inS r.inT).2

def d0d1 : I64 := mul (r.hwS 0) (r.inS 1)
def bufLen : I64 := mul r.d0d1 (r.inS 2)

/-- `llvm::SaturatingMultiply` of 64-bit numbers. -/
def saturatingMultiply (x y : ℕ) : ℕ := min (x * y) (2 ^ 64 - 1)

/-- The greatest length that the limits of the sizes leave. -/
def lenMax : ℕ :=
  let granules := r.sizeMax 0 * r.elemWidth % 2 ^ 64 / r.gran
  saturatingMultiply (saturatingMultiply granules (r.sizeMax 1)) (r.sizeMax 2)

def lenGranules (len : I64) : I64 :=
  if r.elemWidth ≥ r.gran then mul len (cst (r.elemWidth / r.gran))
  else len / cst (r.gran / r.elemWidth)

/-! ## Guards -/

def sizeGuard (i : Fin 4) : Guard where
  cond := inRange1 (r.inS i) (cst (r.sizeHi i))
  message := (if i = 3 then "a runtime DMA repeat count" else "a runtime DMA d" ++ toString i.val ++
    " size") ++ " must be in [1:" ++ toString (r.sizeHi i) ++ "]"

/-- A zero iteration stride is a pure repeat. -/
def iterationGuard : Guard where
  cond := either (eq (r.inT 3) 0) (ule (sub (r.inS 3) 1) (cst (r.maxIterations - 1)))
  message := "a runtime DMA iteration count must be in [1:" ++ toString r.maxIterations ++ "]"

def strideGuard (i : Fin 4) : Guard where
  cond := either (ule (r.inS i) 1)
    (if i = 3 then ule (r.inT 3) (cst r.maxStride) else inRange1 (r.inT i) (cst r.maxStride))
  message := (if i = 3 then "a runtime DMA iteration stride" else "a runtime DMA d" ++
    toString i.val ++ " stride") ++ " must be in [" ++ (if i = 3 then "0" else "1") ++ ":" ++
    toString r.maxStride ++ "] when its size > 1"

def unitStrideGuard : Guard where
  cond := either (ule (r.inS 0) 1) (eq (r.inT 0) 1)
  message := "a runtime DMA d0 stride must be 1 for " ++ toString (r.elemWidth / 8) ++
    "-byte elements (the DMA moves whole " ++ toString (r.gran / 8) ++ "-byte granules)"

def multipleGuard (v : I64) (what : String) : Guard where
  cond := multipleOf v (cst r.divisor)
  message := "a runtime DMA " ++ what ++ " must be a multiple of " ++ toString r.divisor ++
    " elements (whole " ++ toString (r.gran / 8) ++ "-byte granules)"

/-- The extent of the inner dimensions; the whole product counts once `d0 * d1` is in range. -/
def lenGuard : Guard where
  cond := both (ule r.d0d1 (cst r.maxLen)) (ule r.bufLen (cst r.maxLen))
  message := "a runtime DMA transfer exceeds the " ++ toString r.maxLen ++
    "-granule BD buffer_length"

def explicitGuards (len : I64) : List Guard :=
  [⟨inRange1 len (cst (r.maxLen * r.gran / r.elemWidth)), "a runtime DMA length must be in [1:" ++
    toString (r.maxLen * r.gran / r.elemWidth) ++ "] elements"⟩] ++
  (if r.divisor > 1 then [r.multipleGuard len "length"] else []) ++
  [⟨eq (r.lenGranules len) r.bufLen,
    "a runtime DMA length must equal the d0*d1*d2 extent of its dimensions"⟩]

/-- The steps that are packed as the strides say. -/
def stepGuarded (i : Fin 4) : Bool := !(i < 3 && (r.isLinear || (i == 0 && r.elemWidth > r.gran)))

/-- **The guards**, in the order they are emitted. -/
def guards : List Guard :=
  (List.finRange 4).map r.sizeGuard ++ [r.iterationGuard] ++
  ((List.finRange 4).filter r.stepGuarded).map r.strideGuard ++
  (if r.elemWidth ≠ r.gran then [r.unitStrideGuard] else []) ++
  (if r.divisor > 1 then
    [r.multipleGuard (r.inS 0) "d0 size", r.multipleGuard (r.inT 1) "d1 stride",
      r.multipleGuard (r.inT 2) "d2 stride", r.multipleGuard (r.inT 3) "iteration stride"]
  else []) ++
  (if r.lenMax > r.maxLen then [r.lenGuard] else []) ++
  (match r.lenElems with
    | none => []
    | some len => r.explicitGuards len.value)

/-- **The encoder.** -/
def encodeBdCommon : Except String EncodedBd := do
  checkAll r.guards
  .ok {
    hwS := fun i => (r.hwS i).truncate 32
    hwT := fun i => (r.hwT i).truncate 32
    bufLen := r.bufLen.truncate 32
    -- a pure repeat is carried by the queue push
    iterSizeField :=
      (SsaStridePolicy.selectGT0 (r.inT 3) (r.hwS 3) (SsaStridePolicy.cst 0)).truncate 32
    repeatCount := match getConstantIntValue (r.sizes 3) with
      | some n => BitVec.ofInt 32 (if n > 1 then n - 1 else 0)
      | none => (r.hwS 3).truncate 32
    isLinear := r.isLinear }

end BdRequest

/-- The fields with a value of their own, in the order of `packBdWords`. -/
def EncodedBd.runtimeFields (e : EncodedBd) (layout : DmaBdLayout) :
    List (DmaBdField × BitVec 32) :=
  [(layout.bufferLength, e.bufLen)] ++
  (if e.isLinear then [] else
    [(layout.d0Size, e.hwS 0), (layout.d0Stride, e.hwT 0), (layout.d1Size, e.hwS 1),
      (layout.d1Stride, e.hwT 1), (layout.d2Stride, e.hwT 2)]) ++
  [(layout.iterationSize, e.iterSizeField), (layout.iterationStride, e.hwT 3)]

/-! ## What a success has established -/

theorem checkAll_eq_ok {gs : List Guard} {u : Unit} :
    checkAll gs = .ok u ↔ ∀ g ∈ gs, g.cond = true := by
  induction gs with
  | nil => exact iff_of_true rfl (List.forall_mem_nil _)
  | cons g gs ih =>
    rw [List.forall_mem_cons, ← ih, checkAll, check]
    split_ifs with h
    · exact ⟨fun hok => ⟨h, hok⟩, fun hok => hok.2⟩
    · exact iff_of_false nofun fun hok => h hok.1

end MlirAie.Bd
