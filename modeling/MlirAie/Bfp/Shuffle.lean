import MlirAie.Lib.Lists
import MlirAie.Lib.NdArray

/-!
# The block shuffle

A matrix of encoded blocks is rearranged so that, within each tile, the sub-tiles of eight rows and
eight values are contiguous.

* `Sizes`: the sizes of matrix and tile, and their check;
* **`Sizes.shuffle`**: the rearrangement and its inverse;
* **`Sizes.shuffle_bijective`**: the two directions undo each other, and the layout.
-/

namespace MlirAie.Bfp

open Lib

abbrev Byte := Fin 256

def BLOCK : ℕ := 8

def BLOCK_BYTES : ℕ := 9

inductive ShuffleError
  | notMultiple (name : String) (mult : ℕ)
  | tileDoesNotDivide
  | cannotReshape
deriving DecidableEq

/-- `width` and `tileWidth` count values, the heights count rows. -/
structure Sizes where
  width : ℕ
  height : ℕ
  tileWidth : ℕ
  tileHeight : ℕ

namespace Sizes

variable (d : Sizes)

def check : Except ShuffleError Unit :=
  match [("width", d.width), ("tile_width", d.tileWidth), ("tile_height", d.tileHeight)].find?
    fun p => p.2 = 0 ∨ p.2 % BLOCK ≠ 0 with
  | some p => .error (.notMultiple p.1 BLOCK)
  | none =>
    if d.width % d.tileWidth ≠ 0 ∨ d.height % d.tileHeight ≠ 0 then .error .tileDoesNotDivide
    else .ok ()

/-- `W`: the bytes of a row. -/
def rowBytes : ℕ := d.width * BLOCK_BYTES / BLOCK

/-- `tw`: the bytes of a row of a tile. -/
def tileRowBytes : ℕ := d.tileWidth * BLOCK_BYTES / BLOCK

def ty : ℕ := d.height / d.tileHeight

def tx : ℕ := d.rowBytes / d.tileRowBytes

def sy : ℕ := d.tileHeight / BLOCK

def sx : ℕ := d.tileRowBytes / BLOCK_BYTES

/-- `[tileY, subY, i, tileX, subX, j]` to `[tileY, tileX, subY, subX, i, j]`, which is flattened
into the tile's rows. -/
def shuffled (a : FlatArray Byte) : Option (FlatArray Byte) :=
  (a.reshape [d.ty, d.sy, BLOCK, d.tx, d.sx, BLOCK_BYTES]).bind fun v =>
    ((v.transpose [0, 3, 1, 4, 2, 5]).reshape [d.ty, d.tx, d.tileHeight, d.tileRowBytes]).map
      fun v => v.transpose [0, 2, 1, 3]

def unshuffled (a : FlatArray Byte) : Option (FlatArray Byte) :=
  (a.reshape [d.ty, d.tileHeight, d.tx, d.tileRowBytes]).bind fun v =>
    ((v.transpose [0, 2, 1, 3]).reshape [d.ty, d.tx, d.sy, d.sx, BLOCK, BLOCK_BYTES]).map
      fun v => v.transpose [0, 2, 4, 1, 3, 5]

/-- **`shuffle`**, of the bytes of a matrix in row-major order. -/
def shuffle (b : List Byte) (unshuffle : Bool) : Except ShuffleError (List Byte) :=
  d.check.bind fun _ =>
    ((FlatArray.reshape ⟨[b.length], b⟩ [d.height, d.rowBytes]).bind fun a =>
      (if unshuffle then d.unshuffled a else d.shuffled a).bind fun v =>
        v.reshape [d.height, d.rowBytes]).elim (.error .cannotReshape) fun v => .ok v.data

def byteAt (b : List Byte) (row col : ℕ) : Byte := b.getD (row * d.rowBytes + col) default

def tileBytes (b : List Byte) (y x : ℕ) : List Byte :=
  (List.range d.tileHeight).flatMap fun r => (List.range d.tileRowBytes).map fun c =>
    d.byteAt b (y * d.tileHeight + r) (x * d.tileRowBytes + c)

/-- The bytes of a sub-tile, row by row; the `p`-th from above and `q`-th from the left of its
tile. -/
def subTile (b : List Byte) (y x p q : ℕ) : List Byte :=
  (List.range BLOCK).flatMap fun i => (List.range BLOCK_BYTES).map fun j =>
    d.byteAt b (y * d.tileHeight + (p * BLOCK + i)) (x * d.tileRowBytes + (q * BLOCK_BYTES + j))

/-- **Each tile has its sub-tiles one after the other**, in raster order. -/
def Layout (b s : List Byte) : Prop :=
  ∀ y < d.ty, ∀ x < d.tx, d.tileBytes s y x =
    (List.range d.sy).flatMap fun p => (List.range d.sx).flatMap fun q => d.subTile b y x p q

/-! ## Sizes that are accepted -/

/-- The sizes of so many tiles of so many sub-tiles. -/
def ofGrid (ty tx sy sx : ℕ) : Sizes :=
  ⟨tx * (sx * BLOCK), ty * (sy * BLOCK), sx * BLOCK, sy * BLOCK⟩

theorem check_eq_ok (h : d.check = .ok ()) :
    ∃ ty tx sy sx, 0 < sy ∧ 0 < sx ∧ d = ofGrid ty tx sy sx := by
  unfold check at h
  split at h
  · cases h
  · rename_i hnone
    split_ifs at h with hdvd
    push Not at hdvd
    simp only [List.find?_eq_none, List.mem_cons, List.not_mem_nil, or_false, forall_eq_or_imp,
      forall_eq, decide_eq_true_eq, not_or, not_not] at hnone
    obtain ⟨-, ⟨htw, htw8⟩, hth, hth8⟩ := hnone
    obtain ⟨sx, hsx⟩ := Nat.dvd_of_mod_eq_zero htw8
    obtain ⟨sy, hsy⟩ := Nat.dvd_of_mod_eq_zero hth8
    obtain ⟨tx, htx⟩ := Nat.dvd_of_mod_eq_zero hdvd.1
    obtain ⟨ty, hty⟩ := Nat.dvd_of_mod_eq_zero hdvd.2
    refine ⟨ty, tx, sy, sx, ?_, ?_, ?_⟩
    · exact Nat.pos_of_ne_zero fun hzero => hth (by rw [hsy, hzero, mul_zero])
    · exact Nat.pos_of_ne_zero fun hzero => htw (by rw [hsx, hzero, mul_zero])
    · obtain ⟨width, height, tileWidth, tileHeight⟩ := d
      simp only at hsx hsy htx hty
      rw [ofGrid, Sizes.mk.injEq]
      rw [mul_comm sx, mul_comm sy, ← hsx, ← hsy]
      exact ⟨by rw [htx, mul_comm], by rw [hty, mul_comm], rfl, rfl⟩

section Grid

variable (ty tx sy sx : ℕ)

theorem tileRowBytes_ofGrid : (ofGrid ty tx sy sx).tileRowBytes = sx * BLOCK_BYTES := by
  unfold tileRowBytes ofGrid BLOCK BLOCK_BYTES
  simp only
  omega

theorem rowBytes_ofGrid : (ofGrid ty tx sy sx).rowBytes = tx * (sx * BLOCK_BYTES) := by
  unfold rowBytes ofGrid
  simp only
  rw [← mul_assoc tx, mul_right_comm, Nat.mul_div_cancel _ (by decide), mul_assoc]

variable {sy sx}

theorem ty_ofGrid (hsy : 0 < sy) : (ofGrid ty tx sy sx).ty = ty :=
  Nat.mul_div_cancel ty (Nat.mul_pos hsy (by decide))

theorem tx_ofGrid (hsx : 0 < sx) : (ofGrid ty tx sy sx).tx = tx := by
  rw [Sizes.tx, rowBytes_ofGrid, tileRowBytes_ofGrid]
  exact Nat.mul_div_cancel tx (Nat.mul_pos hsx (by decide))

theorem sy_ofGrid : (ofGrid ty tx sy sx).sy = sy := Nat.mul_div_cancel sy (by decide)

theorem sx_ofGrid : (ofGrid ty tx sy sx).sx = sx := by
  rw [Sizes.sx, tileRowBytes_ofGrid]
  exact Nat.mul_div_cancel sx (by decide)

end Grid

/-! ## The two directions -/

section Directions

variable (ty tx sy sx : ℕ) (b : List Byte)

/-- The sub-tiles of the tiles, as they are in memory after shuffling. -/
def subTiles : List Byte :=
  transposeData [ty, sy, BLOCK, tx, sx, BLOCK_BYTES] [0, 3, 1, 4, 2, 5] b

/-- The shuffled bytes. -/
def forth : List Byte :=
  transposeData [ty, tx, sy * BLOCK, sx * BLOCK_BYTES] [0, 2, 1, 3] (subTiles ty tx sy sx b)

def tiles : List Byte :=
  transposeData [ty, sy * BLOCK, tx, sx * BLOCK_BYTES] [0, 2, 1, 3] b

def back : List Byte :=
  transposeData [ty, tx, sy, sx, BLOCK, BLOCK_BYTES] [0, 2, 4, 1, 3, 5] (tiles ty tx sy sx b)

variable {ty tx sy sx b}

/-- The bytes of the matrix. -/
def total (ty tx sy sx : ℕ) : ℕ := ty * (sy * BLOCK) * (tx * (sx * BLOCK_BYTES))

theorem length_subTiles : (subTiles ty tx sy sx b).length = total ty tx sy sx := by
  rw [subTiles, length_transposeData]
  simp only [permute, total, List.map_cons, List.map_nil, List.getD_cons_zero,
    List.getD_cons_succ, List.prod_cons, List.prod_nil]
  ring

theorem length_forth : (forth ty tx sy sx b).length = total ty tx sy sx := by
  rw [forth, length_transposeData]
  simp only [permute, total, List.map_cons, List.map_nil, List.getD_cons_zero,
    List.getD_cons_succ, List.prod_cons, List.prod_nil]
  ring

theorem length_tiles : (tiles ty tx sy sx b).length = total ty tx sy sx := by
  rw [tiles, length_transposeData]
  simp only [permute, total, List.map_cons, List.map_nil, List.getD_cons_zero,
    List.getD_cons_succ, List.prod_cons, List.prod_nil]
  ring

theorem length_back : (back ty tx sy sx b).length = total ty tx sy sx := by
  rw [back, length_transposeData]
  simp only [permute, total, List.map_cons, List.map_nil, List.getD_cons_zero,
    List.getD_cons_succ, List.prod_cons, List.prod_nil]
  ring

theorem transposeData_four {n₀ n₁ n₂ n₃ : ℕ} {data : List Byte}
    (hlen : data.length = [n₀, n₁, n₂, n₃].prod) :
    transposeData [n₀, n₂, n₁, n₃] [0, 2, 1, 3]
      (transposeData [n₀, n₁, n₂, n₃] [0, 2, 1, 3] data) = data := by
  refine @transposeData_transposeData Byte _ [n₀, n₁, n₂, n₃] [0, 2, 1, 3] [0, 2, 1, 3] data hlen
    rfl fun is h => ?_
  rcases h with _ | ⟨h₀, _ | ⟨h₁, _ | ⟨h₂, _ | ⟨h₃, _ | _⟩⟩⟩⟩
  exact ⟨.cons h₀ (.cons h₂ (.cons h₁ (.cons h₃ .nil))), rfl⟩

theorem back_forth (hlen : b.length = total ty tx sy sx) :
    back ty tx sy sx (forth ty tx sy sx b) = b := by
  have htiles : tiles ty tx sy sx (forth ty tx sy sx b) = subTiles ty tx sy sx b := by
    refine transposeData_four (length_subTiles.trans ?_)
    simp only [total, List.prod_cons, List.prod_nil]
    ring
  rw [back, htiles]
  refine @transposeData_transposeData Byte _ [ty, sy, BLOCK, tx, sx, BLOCK_BYTES]
    [0, 3, 1, 4, 2, 5] [0, 2, 4, 1, 3, 5] b (hlen.trans ?_) rfl fun is h => ?_
  · simp only [total, List.prod_cons, List.prod_nil]
    ring
  · rcases h with _ | ⟨h₀, _ | ⟨h₁, _ | ⟨h₂, _ | ⟨h₃, _ | ⟨h₄, _ | ⟨h₅, _ | _⟩⟩⟩⟩⟩⟩
    exact ⟨.cons h₀ (.cons h₃ (.cons h₁ (.cons h₄ (.cons h₂ (.cons h₅ .nil))))), rfl⟩

theorem forth_back (hlen : b.length = total ty tx sy sx) :
    forth ty tx sy sx (back ty tx sy sx b) = b := by
  have hsub : subTiles ty tx sy sx (back ty tx sy sx b) = tiles ty tx sy sx b := by
    refine @transposeData_transposeData Byte _ [ty, tx, sy, sx, BLOCK, BLOCK_BYTES]
      [0, 2, 4, 1, 3, 5] [0, 3, 1, 4, 2, 5] _ (length_tiles.trans ?_) rfl fun is h => ?_
    · simp only [total, List.prod_cons, List.prod_nil]
      ring
    · rcases h with _ | ⟨h₀, _ | ⟨h₁, _ | ⟨h₂, _ | ⟨h₃, _ | ⟨h₄, _ | ⟨h₅, _ | _⟩⟩⟩⟩⟩⟩
      exact ⟨.cons h₀ (.cons h₂ (.cons h₄ (.cons h₁ (.cons h₃ (.cons h₅ .nil))))), rfl⟩
  rw [forth, hsub]
  refine transposeData_four (hlen.trans ?_)
  simp only [total, List.prod_cons, List.prod_nil]
  ring

end Directions

/-! ## The layout -/

theorem flatMap_range_mul {α : Type*} (f : ℕ → List α) (n m : ℕ) :
    ((List.range m).flatMap fun q => (List.range n).flatMap fun r => f (q * n + r)) =
      (List.range (n * m)).flatMap f := by
  have hrange := range_mul_map id n m
  rw [List.map_id] at hrange
  rw [hrange, List.flatMap_assoc]
  congr 1
  funext q
  rw [List.flatMap_map]
  rfl

section Tiles

variable {ty tx sy sx : ℕ} {b : List Byte} {y x : ℕ}

theorem byteAt_eq {r c : ℕ} :
    (ofGrid ty tx sy sx).byteAt b (y * (ofGrid ty tx sy sx).tileHeight + r)
        (x * (ofGrid ty tx sy sx).tileRowBytes + c) =
      elementAt [ty, sy * BLOCK, tx, sx * BLOCK_BYTES] b [y, r, x, c] := by
  unfold byteAt elementAt
  rw [rowBytes_ofGrid, tileRowBytes_ofGrid]
  congr 1
  simp only [ofGrid, ravelIndex, List.prod_cons, List.prod_nil]
  ring

theorem tileBytes_forth (hy : y < ty) (hx : x < tx) :
    (ofGrid ty tx sy sx).tileBytes (forth ty tx sy sx b) y x =
      (List.range (sx * BLOCK_BYTES * (sy * BLOCK))).map fun k =>
        (subTiles ty tx sy sx b).getD
          ((y * tx + x) * (sx * BLOCK_BYTES * (sy * BLOCK)) + k) default := by
  rw [range_mul_map, tileBytes, tileRowBytes_ofGrid]
  refine List.flatMap_congr fun r hr => List.map_congr_left fun c hc => ?_
  have hr : r < sy * BLOCK := List.mem_range.1 hr
  have hc : c < sx * BLOCK_BYTES := List.mem_range.1 hc
  rw [← tileRowBytes_ofGrid ty tx sy sx, byteAt_eq, forth]
  refine (@elementAt_transposeData Byte _ [ty, tx, sy * BLOCK, sx * BLOCK_BYTES] [0, 2, 1, 3]
    [y, r, x, c] _ (.cons hy (.cons hr (.cons hx (.cons hc .nil))))).trans ?_
  rw [elementAt]
  congr 1
  show ravelIndex [ty, tx, sy * BLOCK, sx * BLOCK_BYTES] [y, x, r, c] = _
  simp only [ravelIndex, List.prod_cons, List.prod_nil, tileRowBytes_ofGrid]
  ring

theorem subTile_eq (hy : y < ty) (hx : x < tx) {p q : ℕ} (hp : p < sy)
    (hq : q < sx) :
    (ofGrid ty tx sy sx).subTile b y x p q =
      (List.range (BLOCK_BYTES * BLOCK)).flatMap fun k => [(subTiles ty tx sy sx b).getD
        ((y * tx + x) * (sx * BLOCK_BYTES * (sy * BLOCK)) +
          ((p * sx + q) * (BLOCK_BYTES * BLOCK) + k)) default] := by
  rw [← flatMap_range_mul, subTile]
  refine List.flatMap_congr fun i hi => ?_
  rw [← List.map_eq_flatMap]
  refine List.map_congr_left fun j hj => ?_
  have hi : i < BLOCK := List.mem_range.1 hi
  have hj : j < BLOCK_BYTES := List.mem_range.1 hj
  have hbyte : (ofGrid ty tx sy sx).byteAt b
      (y * (ofGrid ty tx sy sx).tileHeight + (p * BLOCK + i))
      (x * (ofGrid ty tx sy sx).tileRowBytes + (q * BLOCK_BYTES + j)) =
        elementAt [ty, sy, BLOCK, tx, sx, BLOCK_BYTES] b [y, p, i, x, q, j] := by
    rw [byteAt_eq, elementAt, elementAt]
    congr 1
    simp only [ravelIndex, List.prod_cons, List.prod_nil]
    ring
  rw [hbyte]
  refine (@elementAt_transposeData Byte _ [ty, sy, BLOCK, tx, sx, BLOCK_BYTES]
    [0, 3, 1, 4, 2, 5] [y, x, p, q, i, j] b
    (.cons hy (.cons hx (.cons hp (.cons hq (.cons hi (.cons hj .nil))))))).symm.trans ?_
  rw [elementAt, subTiles]
  congr 1
  show ravelIndex [ty, tx, sy, sx, BLOCK, BLOCK_BYTES] [y, x, p, q, i, j] = _
  simp only [ravelIndex, List.prod_cons, List.prod_nil]
  ring

theorem layout_forth (hsy : 0 < sy) (hsx : 0 < sx) :
    (ofGrid ty tx sy sx).Layout b (forth ty tx sy sx b) := by
  intro y hy x hx
  rw [ty_ofGrid _ _ hsy] at hy
  rw [tx_ofGrid _ _ hsx] at hx
  rw [tileBytes_forth hy hx, sy_ofGrid, sx_ofGrid]
  have hinner : ∀ p < sy, ((List.range sx).flatMap fun q =>
      (ofGrid ty tx sy sx).subTile b y x p q) =
        (List.range (BLOCK_BYTES * BLOCK * sx)).flatMap fun k =>
          [(subTiles ty tx sy sx b).getD ((y * tx + x) * (sx * BLOCK_BYTES * (sy * BLOCK)) +
            (p * (BLOCK_BYTES * BLOCK * sx) + k)) default] := by
    intro p hp
    rw [← flatMap_range_mul]
    refine List.flatMap_congr fun q hq => ?_
    rw [subTile_eq hy hx hp (List.mem_range.1 hq)]
    refine List.flatMap_congr fun k _ => ?_
    congr 2
    ring
  rw [List.flatMap_congr fun p hp => hinner p (List.mem_range.1 hp), flatMap_range_mul
    (fun k => [(subTiles ty tx sy sx b).getD
      ((y * tx + x) * (sx * BLOCK_BYTES * (sy * BLOCK)) + k) default]), ← List.map_eq_flatMap]
  congr 2
  ring

end Tiles

/-! ## Both together -/

theorem shuffle_ofGrid {ty tx sy sx : ℕ} (hsy : 0 < sy) (hsx : 0 < sx)
    (hcheck : (ofGrid ty tx sy sx).check = .ok ()) {b : List Byte}
    (hlen : b.length = total ty tx sy sx) :
    (ofGrid ty tx sy sx).shuffle b false = .ok (forth ty tx sy sx b) ∧
      (ofGrid ty tx sy sx).shuffle b true = .ok (back ty tx sy sx b) := by
  have hheight : (ofGrid ty tx sy sx).height = ty * (sy * BLOCK) := rfl
  have htile : (ofGrid ty tx sy sx).tileHeight = sy * BLOCK := rfl
  have hmatrix : ∀ l : List Byte, l.length = total ty tx sy sx →
      [ty * (sy * BLOCK), tx * (sx * BLOCK_BYTES)].prod = l.length := by
    intro l hl
    rw [hl, total, List.prod_cons, List.prod_singleton]
  have hreshape : ∀ shape : List ℕ, ∀ a : FlatArray Byte, shape.prod = a.data.length →
      a.reshape shape = some ⟨shape, a.data⟩ := fun shape a h => if_pos h
  unfold shuffle
  rw [hcheck]
  simp only [Except.bind, hheight, rowBytes_ofGrid, if_true, Bool.false_eq_true, if_false]
  rw [hreshape _ _ (hmatrix b hlen), Option.bind_some, Option.bind_some]
  unfold shuffled unshuffled
  rw [htile, ty_ofGrid _ _ hsy, tx_ofGrid _ _ hsx, sy_ofGrid, sx_ofGrid, tileRowBytes_ofGrid]
  constructor
  · rw [hreshape, Option.bind_some, hreshape, Option.map_some, Option.bind_some, hreshape]
    · rfl
    · exact hmatrix _ length_forth
    · refine Eq.trans ?_ length_subTiles.symm
      simp only [total, List.prod_cons, List.prod_nil]
      ring
    · rw [hlen]
      simp only [total, List.prod_cons, List.prod_nil]
      ring
  · rw [hreshape, Option.bind_some, hreshape, Option.map_some, Option.bind_some, hreshape]
    · rfl
    · exact hmatrix _ length_back
    · refine Eq.trans ?_ length_tiles.symm
      simp only [total, List.prod_cons, List.prod_nil]
      ring
    · rw [hlen]
      simp only [total, List.prod_cons, List.prod_nil]
      ring

/-- **Shuffling and unshuffling an encoded matrix undo each other, and a shuffled tile has its
sub-tiles in a row**, for all sizes that are accepted. -/
theorem shuffle_bijective (d : Sizes) (b : List Byte) (hcheck : d.check = .ok ())
    (hlen : b.length = d.height * d.rowBytes) :
    ∃ s u, d.shuffle b false = .ok s ∧ d.shuffle b true = .ok u ∧
      d.shuffle s true = .ok b ∧ d.shuffle u false = .ok b ∧ d.Layout b s := by
  obtain ⟨ty, tx, sy, sx, hsy, hsx, rfl⟩ := d.check_eq_ok hcheck
  have hlen : b.length = total ty tx sy sx := by rw [hlen, rowBytes_ofGrid]; rfl
  obtain ⟨hforth, hback⟩ := shuffle_ofGrid hsy hsx hcheck hlen
  refine ⟨_, _, hforth, hback, ?_, ?_, layout_forth hsy hsx⟩
  · rw [(shuffle_ofGrid hsy hsx hcheck length_forth).2, back_forth hlen]
  · rw [(shuffle_ofGrid hsy hsx hcheck length_back).1, forth_back hlen]

/-- A matrix of one tile of two sub-tiles. -/
theorem shuffle_bijective_sixteen :
    ∃ s u, (Sizes.mk 16 8 16 8).shuffle (List.replicate 144 0) false = .ok s ∧
      (Sizes.mk 16 8 16 8).shuffle (List.replicate 144 0) true = .ok u ∧
      (Sizes.mk 16 8 16 8).shuffle s true = .ok (List.replicate 144 0) ∧
      (Sizes.mk 16 8 16 8).shuffle u false = .ok (List.replicate 144 0) ∧
      (Sizes.mk 16 8 16 8).Layout (List.replicate 144 0) s :=
  shuffle_bijective ⟨16, 8, 16, 8⟩ (List.replicate 144 0) (by decide) List.length_replicate

end Sizes

end MlirAie.Bfp
