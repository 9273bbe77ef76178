import MlirAie.Bd.Stride
import MlirAie.Lib.Walk

/-!
# N-dimensional access patterns

The patterns a DMA walks, innermost dimension first, and the element addresses they emit.

* `NdDim`, `NdPattern`: the same with one record per dimension;
* `Nd4Pattern`: a pattern of exactly the four dimensions of a descriptor;
* `patternPassesVerification`, `contiguousAndFits`: the patterns a descriptor holds.
-/

namespace MlirAie.Dma

open MlirAie.Lib MlirAie.Bd

structure NdDmaPattern where
  offsets : List ℤ
  sizes : List ℤ
  strides : List ℤ
  baseOffset : ℤ := 0
deriving DecidableEq, Repr

structure NdDim where
  offset : ℤ := 0
  size : ℤ := 1
  stride : ℤ := 0
deriving DecidableEq, Repr, Inhabited

/-- An access pattern by dimension, innermost first. -/
structure NdPattern where
  dims : List NdDim
  baseOffset : ℤ := 0
deriving DecidableEq, Repr

def NdDmaPattern.dims (p : NdDmaPattern) : List NdDim :=
  (p.offsets.zip (p.sizes.zip p.strides)).map fun d => ⟨d.1, d.2.1, d.2.2⟩

def NdDmaPattern.toDims (p : NdDmaPattern) : NdPattern := ⟨p.dims, p.baseOffset⟩

def NdPattern.toVectors (p : NdPattern) : NdDmaPattern where
  offsets := p.dims.map NdDim.offset
  sizes := p.dims.map NdDim.size
  strides := p.dims.map NdDim.stride
  baseOffset := p.baseOffset

/-- The addresses of the dimensions from `base` on, the first one fastest. -/
def addressesFrom (base : ℤ) : List NdDim → List ℤ
  | [] => [base]
  | d :: ds => (addressesFrom base ds).flatMap fun a =>
      (List.range d.size.toNat).map fun (i : ℕ) => a + (d.offset + i) * d.stride

attribute [local simp] addressesFrom

def NdPattern.addresses (p : NdPattern) : List ℤ := addressesFrom p.baseOffset p.dims

/-- **The element stream of a pattern.** -/
def NdDmaPattern.addresses (p : NdDmaPattern) : List ℤ := addressesFrom p.baseOffset p.dims

/-! ## Streams as walks -/

def NdDim.start (d : NdDim) : ℤ := d.offset * d.stride

def NdDim.run (d : NdDim) : List ℤ := Lib.run d.start d.stride d.size.toNat

/-- The displacements of a list of dimensions. -/
def dimsWalk (ds : List NdDim) : List ℤ := walk (ds.map NdDim.run)

theorem NdDim.run_eq (d : NdDim) (a : ℤ) :
    ((List.range d.size.toNat).map fun (i : ℕ) => a + (d.offset + i) * d.stride) =
      d.run.map (a + ·) := by
  simp only [NdDim.run, Lib.run, List.map_map, NdDim.start]
  refine List.map_congr_left fun i _ => ?_
  simp only [Function.comp_apply]
  ring

theorem addressesFrom_eq (base : ℤ) (ds : List NdDim) :
    addressesFrom base ds = (dimsWalk ds).map (base + ·) := by
  induction ds with
  | nil => simp [addressesFrom, dimsWalk, walk]
  | cons d ds ih =>
    have hflat : ((addressesFrom base ds).flatMap fun a =>
        (List.range d.size.toNat).map fun (i : ℕ) => a + (d.offset + i) * d.stride) =
          nest d.run (addressesFrom base ds) := by
      simp only [NdDim.run_eq]
      rfl
    rw [addressesFrom, hflat, ih, nest_map_add]
    rfl

theorem NdPattern.addresses_eq (p : NdPattern) :
    p.addresses = (dimsWalk p.dims).map (p.baseOffset + ·) := addressesFrom_eq _ _

theorem NdDmaPattern.addresses_toDims (p : NdDmaPattern) : p.toDims.addresses = p.addresses := rfl

theorem NdPattern.addresses_toVectors (p : NdPattern) : p.toVectors.addresses = p.addresses := by
  have hdims : p.toVectors.dims = p.dims := by
    simp only [NdDmaPattern.dims, NdPattern.toVectors]
    induction p.dims with
    | nil => rfl
    | cons d ds ih => simpa using ih
  rw [NdDmaPattern.addresses, hdims]
  rfl

theorem dimsWalk_append (ds es : List NdDim) :
    dimsWalk (ds ++ es) = nest (dimsWalk ds) (dimsWalk es) := by
  rw [dimsWalk, List.map_append, walk_append]
  rfl

theorem dimsWalk_cons (d : NdDim) (ds : List NdDim) :
    dimsWalk (d :: ds) = nest d.run (dimsWalk ds) := rfl

@[simp] theorem dimsWalk_nil : dimsWalk [] = [0] := rfl

theorem NdDim.run_of_size_one {d : NdDim} (h : d.size = 1) : d.run = [d.start] := by
  rw [NdDim.run, h]
  exact run_one _ _

/-! ## Patterns a descriptor holds -/

def kNdDmaDims : ℕ := 4

def kMaxNdDmaPieces : ℕ := 1024

/-- A pattern of exactly `kNdDmaDims` dimensions. -/
structure Nd4Pattern where
  dim : Fin 4 → NdDim
  baseOffset : ℤ := 0

namespace Nd4Pattern

variable (p : Nd4Pattern)

def sizes (i : Fin 4) : ℤ := (p.dim i).size
def strides (i : Fin 4) : ℤ := (p.dim i).stride
def offsets (i : Fin 4) : ℤ := (p.dim i).offset

def toDims : NdPattern := ⟨[p.dim 0, p.dim 1, p.dim 2, p.dim 3], p.baseOffset⟩

def addresses : List ℤ := p.toDims.addresses

/-- The dimensions `ds`, padded with unit ones. -/
def ofDims (ds : List NdDim) (baseOffset : ℤ) : Nd4Pattern := ⟨fun i => ds.getD i {}, baseOffset⟩

end Nd4Pattern

/-- The tile and element width a pattern is lowered for. -/
structure DmaTarget where
  tm : AIETargetModel
  col : ℤ
  row : ℤ
  elemWidth : ℕ

namespace DmaTarget

variable (T : DmaTarget)

def tile : AIETileType := T.tm.getTileType T.col T.row

def gran : ℕ := T.tm.getAddressGenGranularity

/-- The longest iteration dimension a descriptor holds. -/
def maxIterations : ℤ := 2 ^ T.tm.getDmaBdIterBits T.tile

/-- Whether a four-dimensional pattern passes `verifyStridesWraps`. -/
def patternPassesVerification (pattern : Nd4Pattern) (skipTransformationChecks : Bool := false) :
    Bool :=
  let hw := getHardwareStridesWraps T.tm T.elemWidth pattern.sizes pattern.strides
  match verifyStridesWraps T.tm T.elemWidth T.col T.row pattern.sizes pattern.strides hw.1 hw.2
    skipTransformationChecks with
  | .ok _ => true
  | .error _ => false

def contiguousAndFits (pattern : Nd4Pattern) : Bool :=
  isContiguousTransfer pattern.sizes pattern.strides &&
    decide (pattern.sizes 3 ≤ T.maxIterations)

end DmaTarget

end MlirAie.Dma
