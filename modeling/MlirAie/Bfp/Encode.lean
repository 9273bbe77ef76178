import MlirAie.Bfp.Shuffle
import MlirAie.Lib.BinaryFloat

/-!
# Block floating point

Eight float32 values share the largest of their exponents, and each keeps a mantissa of eight bits.

* **`encode`**, **`decode`**, **`quantize`**: the conversions, in the steps of the array operations;
* `Block`: eight values that are zero or normal;
* **`blocks_round`**: which integers are stored and which values are returned.
-/

namespace MlirAie.Bfp

open Lib BinaryFormat

/-! ## Values -/

section Bits

variable (bits : UInt32)

def sign : Bool := bits >>> 31 != 0

def exp : ℕ := ((bits >>> 23) &&& 0xFF).toNat

def mant : ℕ := ((bits &&& 0x7FFFFF) ||| if exp bits ≠ 0 then 0x800000 else 0).toNat

def isFinite : Bool := exp bits != 255

def signed : ℤ := if sign bits then -mant bits else mant bits

/-- What a finite number stands for; the exponent of subnormal numbers is that of `1`. -/
def value : ℚ := signed bits * 2 ^ (max (exp bits : ℤ) 1 - 150)

end Bits

abbrev Single := {bits : UInt32 // isFinite bits}

/-- float64 arithmetic, where nothing leaves the range. -/
def div64 (x y : ℚ) : ℚ := binary64.round (x / y)

def mul64 (x y : ℚ) : ℚ := binary64.round (x * y)

/-! ## Conversions -/

inductive Rounding
  | floor
  | convEven
deriving DecidableEq

/-- Seven magnitude bits of a float32 mantissa are kept. -/
def MANTISSA_SHIFT : ℕ := 23 - 7 + 1

/-- `m32`, two's complement in 32 bits. -/
def m32 (bits : UInt32) : ℤ := if sign bits then -(mant bits : ℤ) % 2 ^ 32 else mant bits

def clip (v : ℤ) : ℤ := max (-128) (min v 127)

/-- A mantissa that is `shift` binades below the largest. -/
def mantissa (rounding : Rounding) (bits : UInt32) (shift : ℕ) : ℤ :=
  match rounding with
  | .convEven => clip (roundEven (div64 (signed bits) (2 ^ min (MANTISSA_SHIFT + shift) 62)))
  -- the low byte after a logical shift is shifted arithmetically
  | .floor => ((m32 bits >>> MANTISSA_SHIFT) % 256).bmod 256 >>> min shift 31

local instance neZeroByte : NeZero (256 : ℕ) := ⟨by decide⟩

def toByte (v : ℤ) : Byte := Fin.ofNat 256 (v % 256).toNat

def toInt8 (b : Byte) : ℤ := (b.val : ℤ).bmod 256

structure Packed where
  exponent : ℕ
  mantissas : List ℤ

def Packed.bytes (p : Packed) : List Byte := toByte p.exponent :: p.mantissas.map toByte

def maxExp (block : List UInt32) : ℕ := (block.map exp).foldr max 0

def encodeBlock (rounding : Rounding) (block : List UInt32) : Packed where
  exponent := maxExp block
  mantissas := block.map fun bits =>
    let shift := maxExp block - exp bits
    if 32 ≤ shift then if sign bits then -1 else 0 else mantissa rounding bits shift

/-- The rows of a reshape to `count` rows of `n`. -/
def rows {α : Type*} (n : ℕ) : ℕ → List α → List (List α)
  | 0, _ => []
  | count + 1, xs => xs.take n :: rows n count (xs.drop n)

/-- **`encode`**, of a last axis. -/
def encode (rounding : Rounding) (x : List UInt32) : Except String (List Byte) :=
  if x.length % BLOCK ≠ 0 then
    .error s!"bfp.encode: last axis {x.length} is not a multiple of {BLOCK}"
  else if ¬x.all isFinite then .error "bfp.encode: inputs must be finite"
  else .ok ((rows BLOCK (x.length / BLOCK) x).flatMap fun b => (encodeBlock rounding b).bytes)

/-- The value of a mantissa under an exponent. -/
def ldexp (exponent : ℕ) : ℚ := 2 ^ ((exponent : ℤ) - 127 - 6)

def decodeBlock : List Byte → List Converted
  | [] => []
  | exponent :: mantissas =>
    mantissas.map fun m => binary32.convert (mul64 (toInt8 m) (ldexp exponent))

/-- **`decode`**, of a last axis. -/
def decode (b : List Byte) : Except String (List Converted) :=
  if b.length % BLOCK_BYTES ≠ 0 then
    .error s!"bfp.decode: last axis {b.length} is not a multiple of {BLOCK_BYTES}"
  else .ok ((rows BLOCK_BYTES (b.length / BLOCK_BYTES) b).flatMap decodeBlock)

def rint (block : List Single) (scale : ℚ) : List ℤ :=
  block.map fun x => roundEven (div64 (value x.val) scale)

def blockScale (block : List Single) : ℚ := ldexp (maxExp (block.map (·.val)))

/-- A mantissa past 127 raises the exponent of its block. -/
def carryScale (block : List Single) : ℚ :=
  if ∃ m ∈ rint block (blockScale block), 127 < m then mul64 (blockScale block) 2
  else blockScale block

def quantizeBlock (block : List Single) : List Converted :=
  (rint block (carryScale block)).map fun m =>
    binary32.convert (mul64 (clip m) (carryScale block))

/-- **`quantize`**, of a last axis of finite values. -/
def quantize (rounding : Rounding) (x : List Single) : Except String (List Converted) :=
  match rounding with
  | .floor => encode .floor (x.map (·.val)) >>= decode
  | .convEven =>
    if x.length % BLOCK ≠ 0 then
      .error s!"bfp.quantize: last axis {x.length} is not a multiple of {BLOCK}"
    else .ok ((rows BLOCK (x.length / BLOCK) x).flatMap quantizeBlock)

/-! ## The parts of a float32 -/

section Parts

variable (bits : UInt32)

theorem mant_eq : mant bits =
    bits.toNat % 2 ^ 23 + if exp bits ≠ 0 then 2 ^ 23 else 0 := by
  have hmask : (bits &&& 0x7FFFFF).toNat = bits.toNat % 2 ^ 23 := by
    rw [UInt32.toNat_and]
    exact Nat.and_two_pow_sub_one_eq_mod bits.toNat 23
  rw [mant, UInt32.toNat_or, hmask]
  split_ifs
  · have hlt : bits.toNat % 2 ^ 23 < 2 ^ 23 := Nat.mod_lt _ (by norm_num)
    have h := Nat.two_pow_add_eq_or_of_lt hlt 1
    rw [mul_one] at h
    rw [Nat.lor_comm, add_comm, h]
    rfl
  · simp

theorem mant_lt : mant bits < 2 ^ 24 := by
  have := Nat.mod_lt bits.toNat (show 0 < 2 ^ 23 by norm_num)
  rw [mant_eq]
  split_ifs <;> omega

theorem abs_signed : |signed bits| = mant bits := by
  unfold signed
  split_ifs
  · rw [abs_neg, Nat.abs_cast]
  · rw [Nat.abs_cast]

theorem abs_signed_lt : |signed bits| < 2 ^ 24 := by
  rw [abs_signed]
  exact_mod_cast mant_lt bits

theorem exp_lt : exp bits < 256 := by
  have h : exp bits = (bits >>> 23).toNat % 2 ^ 8 := by
    rw [exp, UInt32.toNat_and]
    exact Nat.and_two_pow_sub_one_eq_mod _ 8
  rw [h]
  exact Nat.mod_lt _ (by norm_num)

end Parts

/-! ## Blocks -/

/-- Eight finite values, each zero (of either sign) or normal. -/
structure Block where
  values : List Single
  length_eq : values.length = BLOCK
  zero_or_normal : ∀ x ∈ values, exp x = 0 → mant x = 0

namespace Block

variable (b : Block)

def bits : List UInt32 := b.values.map (·.val)

/-- `E`, the largest exponent of the block. -/
def exponent : ℕ := maxExp b.bits

/-- The mantissa of a value under an exponent, before it is rounded. -/
def scaled (E : ℕ) (x : Single) : ℚ := value x * 2 ^ (133 - (E : ℤ))

/-- The sign bit is set, and the value is 32 or more binades below the largest. -/
def FarNegative (x : Single) : Prop := sign x ∧ 32 ≤ b.exponent - exp x

instance (x : Single) : Decidable (b.FarNegative x) := by unfold FarNegative; infer_instance

/-- The exponent that the values are rounded with: a value that rounds to 128 raises it. -/
def quantizeExponent : ℕ :=
  if 128 ∈ b.values.map fun x => roundEven (scaled b.exponent x) then b.exponent + 1
  else b.exponent

end Block

variable {b : Block} {x : Single} {E : ℕ}

theorem le_maxExp {xs : List UInt32} {bits : UInt32} (h : bits ∈ xs) : exp bits ≤ maxExp xs := by
  induction xs with
  | nil => cases h
  | cons y ys ih =>
    show exp bits ≤ max (exp y) (maxExp ys)
    rcases List.mem_cons.1 h with rfl | h
    · exact le_max_left _ _
    · exact (ih h).trans (le_max_right _ _)

theorem maxExp_lt (xs : List UInt32) : maxExp xs < 256 := by
  induction xs with
  | nil => decide
  | cons y ys ih => exact max_lt (exp_lt y) ih

theorem Block.exp_le (h : x ∈ b.values) : exp x ≤ b.exponent :=
  le_maxExp (List.mem_map_of_mem h)

/-- The mantissa before it is rounded, as the quotient that the integers are shifted for. -/
theorem scaled_eq (h : x ∈ b.values) (hE : exp x ≤ E) :
    Block.scaled E x = (signed x : ℚ) / (2 ^ (MANTISSA_SHIFT + (E - exp x)) : ℕ) := by
  unfold Block.scaled value
  rcases Nat.eq_zero_or_pos (exp x) with hzero | hpos
  · have hsigned : signed x = 0 := by
      rw [← abs_eq_zero, abs_signed, b.zero_or_normal x h hzero, Nat.cast_zero]
    rw [hsigned, Int.cast_zero, zero_mul, zero_mul, zero_div]
  · have htwo : (2 : ℚ) ≠ 0 := by norm_num
    rw [max_eq_left (by omega), mul_assoc, ← zpow_add₀ htwo, div_eq_mul_inv, Nat.cast_pow,
      Nat.cast_ofNat, ← zpow_natCast, ← zpow_neg]
    congr 2
    simp only [MANTISSA_SHIFT]
    omega

theorem abs_scaled_lt (h : x ∈ b.values) (hE : exp x ≤ E) :
    |Block.scaled E x| < 2 ^ 7 / 2 ^ (E - exp x) := by
  have hsigned : |(signed x : ℚ)| < 2 ^ 24 := by exact_mod_cast abs_signed_lt x.val
  have hshift : ((2 ^ (MANTISSA_SHIFT + (E - exp x)) : ℕ) : ℚ) = 2 ^ 17 * 2 ^ (E - exp x) := by
    push_cast
    exact pow_add 2 17 _
  rw [scaled_eq h hE, abs_div, Nat.abs_cast, hshift,
    div_lt_div_iff₀ (by positivity) (by positivity)]
  calc |(signed x : ℚ)| * 2 ^ (E - exp x) < 2 ^ 24 * 2 ^ (E - exp x) :=
        mul_lt_mul_of_pos_right hsigned (by positivity)
    _ = 2 ^ 7 * (2 ^ 17 * 2 ^ (E - exp x)) := by ring

theorem roundEven_mem {q : ℚ} {n : ℤ} (hn : |q| ≤ n) : |roundEven q| ≤ n := by
  obtain ⟨hlo, hhi⟩ := abs_le.1 hn
  exact abs_le.2 ⟨le_roundEven (by exact_mod_cast hlo), roundEven_le hhi⟩

theorem abs_scaled_lt_128 (h : x ∈ b.values) (hE : exp x ≤ E) : |Block.scaled E x| < 128 := by
  refine (abs_scaled_lt h hE).trans_le ?_
  rw [div_le_iff₀ (by positivity)]
  have : (1 : ℚ) ≤ 2 ^ (E - exp x) := one_le_pow₀ (by norm_num)
  linarith

/-! ## Both roundings of a mantissa -/

/-- The shifted integers are the floor. -/
theorem floor_scaled (h : x ∈ b.values) (hE : exp x ≤ E) :
    ⌊Block.scaled E x⌋ = signed x / 2 ^ (MANTISSA_SHIFT + (E - exp x)) := by
  rw [scaled_eq h hE, Rat.floor_intCast_div_natCast]
  push_cast
  rfl

theorem lowByte_eq (bits : UInt32) :
    ((m32 bits >>> MANTISSA_SHIFT) % 256).bmod 256 = signed bits / 2 ^ MANTISSA_SHIFT := by
  have hlt := mant_lt bits
  rw [Int.shiftRight_eq_div_pow, Int.bmod_def]
  unfold m32 signed MANTISSA_SHIFT
  norm_num at hlt ⊢
  split_ifs <;> omega

theorem mantissa_floor (h : x ∈ b.values) (hE : exp x ≤ E) (hnear : E - exp x < 32) :
    mantissa .floor x (E - exp x) = ⌊Block.scaled E x⌋ := by
  show ((m32 x >>> MANTISSA_SHIFT) % 256).bmod 256 >>> min (E - exp x) 31 = _
  rw [lowByte_eq, floor_scaled h hE, min_eq_left (by omega), Int.shiftRight_eq_div_pow,
    Int.ediv_ediv_of_nonneg (by positivity), pow_add]
  push_cast
  rfl

theorem mantissa_convEven (h : x ∈ b.values) (hE : exp x ≤ E) (hnear : E - exp x < 32) :
    mantissa .convEven x (E - exp x) = clip (roundEven (Block.scaled E x)) := by
  have hshift : MANTISSA_SHIFT + (E - exp x) < 62 := by
    simp only [MANTISSA_SHIFT]
    omega
  have hquotient : div64 (signed x) (2 ^ (MANTISSA_SHIFT + (E - exp x))) = Block.scaled E x := by
    have hself := binary64.round_eq_self (m := signed x)
      (e := -((MANTISSA_SHIFT + (E - exp x) : ℕ) : ℤ))
      ((abs_signed_lt x.val).trans (by norm_num [binary64])) (by simp only [binary64]; omega)
    rw [scaled_eq h hE, div64]
    rw [zpow_neg, zpow_natCast, ← div_eq_mul_inv] at hself
    rw [hself, Nat.cast_pow, Nat.cast_ofNat]
  show clip (roundEven (div64 (signed x) (2 ^ min (MANTISSA_SHIFT + (E - exp x)) 62))) = _
  rw [min_eq_left hshift.le, hquotient]

theorem scaled_nonneg (hsign : sign x = false) : 0 ≤ Block.scaled E x := by
  have : 0 ≤ signed x := by
    rw [signed, hsign]
    exact Nat.cast_nonneg _
  exact mul_nonneg (mul_nonneg (by exact_mod_cast this) (by positivity)) (by positivity)

theorem abs_scaled_lt_half (h : x ∈ b.values) (hE : exp x ≤ E) (hfar : 32 ≤ E - exp x) :
    |Block.scaled E x| < 1 / 2 := by
  refine (abs_scaled_lt h hE).trans_le ?_
  rw [div_le_iff₀ (by positivity)]
  have : (2 : ℚ) ^ 32 ≤ 2 ^ (E - exp x) := pow_le_pow_right₀ (by norm_num) hfar
  linarith

/-! ## The conversions of blocks -/

/-- What `encode` stores in place of a value. -/
def Block.stored (b : Block) (round : ℚ → ℤ) (x : Single) : ℤ :=
  if b.FarNegative x then -1 else round (Block.scaled b.exponent x)

theorem roundEven_eq_zero {q : ℚ} (h : |q| < 1 / 2) : roundEven q = 0 :=
  roundEven_eq_iff.2 (Or.inl (by rwa [Int.cast_zero, sub_zero]))

theorem encodeBlock_eq {rounding : Rounding} {round : ℚ → ℤ}
    (hnear : ∀ x ∈ b.values, b.exponent - exp x < 32 →
      mantissa rounding x (b.exponent - exp x) = round (Block.scaled b.exponent x))
    (hfar : ∀ q : ℚ, 0 ≤ q → q < 1 / 2 → round q = 0) :
    encodeBlock rounding b.bits = ⟨b.exponent, b.values.map (b.stored round)⟩ := by
  unfold encodeBlock Block.bits
  rw [List.map_map]
  congr 1
  refine List.map_congr_left fun x hx => ?_
  show (if 32 ≤ b.exponent - exp x then if sign x then -1 else 0
    else mantissa rounding x (b.exponent - exp x)) = _
  unfold Block.stored
  by_cases hle : 32 ≤ b.exponent - exp x
  · rw [if_pos hle]
    by_cases hsign : sign x
    · have hneg : b.FarNegative x := ⟨hsign, hle⟩
      rw [if_pos hsign, if_pos hneg]
    · have hpos : ¬b.FarNegative x := fun h => hsign h.1
      rw [if_neg hsign, if_neg hpos, hfar _ (scaled_nonneg (by simpa using hsign))]
      exact (abs_lt.1 (abs_scaled_lt_half hx (b.exp_le hx) hle)).2
  · have hnot : ¬b.FarNegative x := fun h => hle h.2
    rw [if_neg hle, if_neg hnot, hnear x hx (by omega)]

theorem encodeBlock_floor : encodeBlock .floor b.bits =
    ⟨b.exponent, b.values.map (b.stored Int.floor)⟩ :=
  encodeBlock_eq (fun _ hx hlt => mantissa_floor hx (b.exp_le hx) hlt) fun _ hpos hlt =>
    Int.floor_eq_zero_iff.2 ⟨hpos, hlt.trans (by norm_num)⟩

theorem encodeBlock_convEven : encodeBlock .convEven b.bits =
    ⟨b.exponent, b.values.map (b.stored fun q => clip (roundEven q))⟩ :=
  encodeBlock_eq (fun _ hx hlt => mantissa_convEven hx (b.exp_le hx) hlt) fun _ hpos hlt => by
    rw [roundEven_eq_zero (abs_lt.2 ⟨by linarith, hlt⟩)]
    rfl

/-- A multiple of a power of two as a float32, infinite from `2 ^ 128` on. -/
def heldSingle (y : ℚ) : Converted :=
  if |y| < 2 ^ 128 then .finite y else .infinite (y < 0)

theorem div64_ldexp (hlt : E ≤ 256) :
    div64 (value x) (2 ^ ((E : ℤ) - 127 - 6)) = Block.scaled E x := by
  have htwo : (2 : ℚ) ≠ 0 := by norm_num
  have hquotient : value x / 2 ^ ((E : ℤ) - 127 - 6) =
      signed x * 2 ^ (max (exp x : ℤ) 1 - 150 + (133 - E)) := by
    rw [value, mul_div_assoc, ← zpow_sub₀ htwo]
    congr 2
    ring
  rw [div64, hquotient, binary64.round_eq_self ((abs_signed_lt x.val).trans
    (by norm_num [binary64])) (by simp only [binary64]; omega), Block.scaled, value, mul_assoc,
    ← zpow_add₀ htwo]

theorem convert_mul64 {m : ℤ} (hm : |m| ≤ 128) (hlt : E ≤ 256) :
    binary32.convert (mul64 m (2 ^ ((E : ℤ) - 127 - 6))) =
      heldSingle (m * 2 ^ ((E : ℤ) - 133)) := by
  have hE : (E : ℤ) - 127 - 6 = E - 133 := by ring
  have h64 : mul64 m (2 ^ ((E : ℤ) - 133)) = m * 2 ^ ((E : ℤ) - 133) :=
    binary64.round_eq_self (hm.trans_lt (by norm_num [binary64])) (by simp only [binary64]; omega)
  have h32 : binary32.round (m * 2 ^ ((E : ℤ) - 133)) = m * 2 ^ ((E : ℤ) - 133) :=
    binary32.round_eq_self (hm.trans_lt (by norm_num [binary32])) (by simp only [binary32]; omega)
  rw [hE, h64, convert, h32]
  rfl

theorem clip_eq_self {m : ℤ} (hlo : -128 ≤ m) (hhi : m ≤ 127) : clip m = m := by
  unfold clip
  omega

theorem exponent_le (b : Block) : b.exponent ≤ 255 := Nat.le_of_lt_succ (maxExp_lt b.bits)

theorem Block.exponent_le_quantizeExponent (b : Block) : b.exponent ≤ b.quantizeExponent := by
  unfold Block.quantizeExponent
  split_ifs <;> omega

theorem Block.quantizeExponent_le (b : Block) : b.quantizeExponent ≤ 256 := by
  have := exponent_le b
  unfold Block.quantizeExponent
  split_ifs <;> omega

theorem rint_eq (hlt : E ≤ 256) :
    rint b.values (2 ^ ((E : ℤ) - 127 - 6)) =
      b.values.map fun x => roundEven (Block.scaled E x) := by
  unfold rint
  refine List.map_congr_left fun x hx => ?_
  rw [div64_ldexp hlt]

theorem abs_rounded_le (hE : b.exponent ≤ E) (hx : x ∈ b.values) :
    |roundEven (Block.scaled E x)| ≤ 128 :=
  roundEven_mem (by exact_mod_cast (abs_scaled_lt_128 hx ((b.exp_le hx).trans hE)).le)

theorem abs_rounded_succ_le (hx : x ∈ b.values) :
    |roundEven (Block.scaled (b.exponent + 1) x)| ≤ 64 := by
  have hexp := b.exp_le hx
  refine roundEven_mem ((abs_scaled_lt hx (hexp.trans (Nat.le_succ _))).le.trans ?_)
  rw [div_le_iff₀ (by positivity)]
  have hpow : (2 : ℚ) ^ 1 ≤ 2 ^ (b.exponent + 1 - exp x) :=
    pow_le_pow_right₀ (by norm_num) (by omega)
  push_cast
  linarith

theorem carryScale_eq (b : Block) :
    carryScale b.values = 2 ^ ((b.quantizeExponent : ℤ) - 127 - 6) := by
  have hmax := exponent_le b
  have hscale : blockScale b.values = 2 ^ ((b.exponent : ℤ) - 127 - 6) := rfl
  have hcarry : (∃ m ∈ rint b.values (blockScale b.values), 127 < m) ↔
      128 ∈ b.values.map fun x => roundEven (Block.scaled b.exponent x) := by
    rw [hscale, rint_eq (by omega)]
    simp only [List.mem_map, exists_exists_and_eq_and]
    refine exists_congr fun x => and_congr_right fun hx => ?_
    have := abs_le.1 (abs_rounded_le le_rfl hx)
    omega
  unfold carryScale Block.quantizeExponent
  by_cases hex : 128 ∈ b.values.map fun x => roundEven (Block.scaled b.exponent x)
  · have hself := binary64.round_eq_self (m := 1) (e := (b.exponent : ℤ) - 127 - 6 + 1)
      (by norm_num [binary64]) (by simp only [binary64]; omega)
    rw [Int.cast_one, one_mul, zpow_add_one₀ (by norm_num)] at hself
    rw [if_pos (hcarry.2 hex), if_pos hex, mul64, hscale, hself, ← zpow_add_one₀ (by norm_num)]
    congr 1
    push_cast
    ring
  · rw [if_neg fun h => hex (hcarry.1 h), if_neg hex, hscale]

/-- **A block is rounded again** with the next exponent when a value rounds to 128. -/
theorem quantizeBlock_eq (b : Block) : quantizeBlock b.values = b.values.map fun x =>
    heldSingle (roundEven (Block.scaled b.quantizeExponent x) *
      2 ^ ((b.quantizeExponent : ℤ) - 133)) := by
  have hle := b.exponent_le_quantizeExponent
  unfold quantizeBlock
  rw [carryScale_eq, rint_eq b.quantizeExponent_le, List.map_map]
  refine List.map_congr_left fun x hx => ?_
  have hbound := abs_le.1 (abs_rounded_le hle hx)
  have hne : roundEven (Block.scaled b.quantizeExponent x) ≠ 128 := by
    unfold Block.quantizeExponent
    split_ifs with hex
    · have := abs_le.1 (abs_rounded_succ_le hx)
      omega
    · exact fun heq => hex (List.mem_map.2 ⟨x, hx, heq⟩)
  show binary32.convert (mul64 (clip (roundEven (Block.scaled b.quantizeExponent x)))
    (2 ^ ((b.quantizeExponent : ℤ) - 127 - 6))) = _
  rw [clip_eq_self hbound.1 (by omega), convert_mul64 (abs_rounded_le hle hx)
    b.quantizeExponent_le]

/-! ## Rows of blocks -/

theorem rows_flatMap {α β : Type*} {n : ℕ} {f : β → List α} (hf : ∀ b, (f b).length = n)
    (bs : List β) : rows n bs.length (bs.flatMap f) = bs.map f := by
  induction bs with
  | nil => rfl
  | cons b bs ih =>
    rw [List.flatMap_cons, List.map_cons, List.length_cons, rows,
      List.take_left' (hf b), List.drop_left' (hf b), ih]

theorem length_flatMap {α β : Type*} {n : ℕ} {f : β → List α} (hf : ∀ b, (f b).length = n)
    (bs : List β) : (bs.flatMap f).length = bs.length * n := by
  rw [List.length_flatMap, List.map_congr_left fun b _ => hf b, List.map_const', List.sum_replicate,
    smul_eq_mul]

theorem length_bits (b : Block) : b.bits.length = BLOCK := by
  rw [Block.bits, List.length_map, b.length_eq]

theorem encode_blocks {rounding : Rounding} (blocks : List Block) :
    encode rounding (blocks.flatMap Block.bits) =
      .ok (blocks.flatMap fun b => (encodeBlock rounding b.bits).bytes) := by
  have hlength := length_flatMap length_bits blocks
  have hfinite : (blocks.flatMap Block.bits).all isFinite := by
    refine List.all_eq_true.2 fun bits hmem => ?_
    obtain ⟨b, -, hb⟩ := List.mem_flatMap.1 hmem
    obtain ⟨x, -, rfl⟩ := List.mem_map.1 hb
    exact x.2
  unfold encode
  rw [if_neg (not_not.2 (by rw [hlength, Nat.mul_mod_left])), if_neg (not_not.2 hfinite), hlength,
    Nat.mul_div_cancel _ (by decide), rows_flatMap length_bits, List.flatMap_map]

theorem encode_floor (blocks : List Block) : encode .floor (blocks.flatMap Block.bits) =
    .ok (blocks.flatMap fun b =>
      (Packed.mk b.exponent (b.values.map (b.stored Int.floor))).bytes) := by
  rw [encode_blocks]
  simp only [encodeBlock_floor]

theorem encode_convEven (blocks : List Block) : encode .convEven (blocks.flatMap Block.bits) =
    .ok (blocks.flatMap fun b =>
      (Packed.mk b.exponent (b.values.map (b.stored fun q => clip (roundEven q)))).bytes) := by
  rw [encode_blocks]
  simp only [encodeBlock_convEven]

theorem quantize_convEven (blocks : List Block) :
    quantize .convEven (blocks.flatMap Block.values) =
      .ok (blocks.flatMap fun b => b.values.map fun x =>
        heldSingle (roundEven (Block.scaled b.quantizeExponent x) *
          2 ^ ((b.quantizeExponent : ℤ) - 133))) := by
  have hlength := length_flatMap Block.length_eq blocks
  unfold quantize
  rw [if_neg (not_not.2 (by rw [hlength, Nat.mul_mod_left])), hlength,
    Nat.mul_div_cancel _ (by decide), rows_flatMap Block.length_eq, List.flatMap_map]
  simp only [quantizeBlock_eq]

/-- **Block floating point rounds** as it is documented, apart from the sign that values far below
the largest leave, and from float32's range. -/
theorem blocks_round (blocks : List Block) :
    encode .floor (blocks.flatMap Block.bits) = .ok (blocks.flatMap fun b =>
      (Packed.mk b.exponent (b.values.map (b.stored Int.floor))).bytes) ∧
    encode .convEven (blocks.flatMap Block.bits) = .ok (blocks.flatMap fun b =>
      (Packed.mk b.exponent (b.values.map (b.stored fun q => clip (roundEven q)))).bytes) ∧
    quantize .convEven (blocks.flatMap Block.values) = .ok (blocks.flatMap fun b =>
      b.values.map fun x => heldSingle (roundEven (Block.scaled b.quantizeExponent x) *
        2 ^ ((b.quantizeExponent : ℤ) - 133))) :=
  ⟨encode_floor blocks, encode_convEven blocks, quantize_convEven blocks⟩

def Block.RoundsAlone (b : Block) : Prop :=
  encode .floor b.bits =
    .ok (Packed.mk b.exponent (b.values.map fun x => ⌊Block.scaled b.exponent x⌋)).bytes ∧
  encode .convEven b.bits = .ok (Packed.mk b.exponent
    (b.values.map fun x => clip (roundEven (Block.scaled b.exponent x)))).bytes ∧
  quantize .convEven b.values = .ok (b.values.map fun x =>
    .finite (roundEven (Block.scaled b.quantizeExponent x) *
      2 ^ ((b.quantizeExponent : ℤ) - 133)))

def zeros (n : ℕ) : List Single := List.replicate n ⟨0, rfl⟩

theorem mant_of_mem_zeros {n : ℕ} (hx : x ∈ zeros n) : exp x = 0 → mant x = 0 := fun _ => by
  rw [List.eq_of_mem_replicate hx]
  rfl

/-- `1`, then `-2 ^ -40`. -/
def farBelow : Block where
  values := ⟨0x3F800000, rfl⟩ :: ⟨0xAB800000, rfl⟩ :: zeros 6
  length_eq := rfl
  zero_or_normal := List.forall_mem_cons.2 ⟨fun h => absurd h (by decide),
    List.forall_mem_cons.2 ⟨fun h => absurd h (by decide), fun _ => mant_of_mem_zeros⟩⟩

def largest : Block where
  values := ⟨0x7F7FFFFF, rfl⟩ :: zeros 7
  length_eq := rfl
  zero_or_normal := List.forall_mem_cons.2 ⟨fun h => absurd h (by decide),
    fun _ => mant_of_mem_zeros⟩

/-- A tiny negative value is stored as `-1` instead of the nearest `0`, and a value that rounds up
past the largest float32 is returned as an infinity. -/
theorem farBelow_largest_not_roundsAlone : ¬farBelow.RoundsAlone ∧ ¬largest.RoundsAlone := by
  constructor
  · rintro ⟨-, heven, -⟩
    have hcode := encode_convEven [farBelow]
    rw [List.flatMap_singleton, List.flatMap_singleton, heven] at hcode
    have hsecond := congrArg (fun bytes => bytes[2]?) (Except.ok.inj hcode)
    have hx : (⟨0xAB800000, rfl⟩ : Single) ∈ farBelow.values :=
      List.mem_cons_of_mem _ List.mem_cons_self
    have hzero := roundEven_eq_zero (abs_scaled_lt_half hx (farBelow.exp_le hx) (by decide))
    have hstored : farBelow.stored (fun q => clip (roundEven q)) ⟨0xAB800000, rfl⟩ = -1 :=
      if_pos (by decide)
    have hbytes : some (toByte (clip (roundEven (Block.scaled farBelow.exponent
        ⟨0xAB800000, rfl⟩)))) =
        some (toByte (farBelow.stored (fun q => clip (roundEven q)) ⟨0xAB800000, rfl⟩)) := hsecond
    rw [hzero, hstored] at hbytes
    exact absurd hbytes (by decide)
  · rintro ⟨-, -, hquantize⟩
    have hcode := quantize_convEven [largest]
    rw [List.flatMap_singleton, List.flatMap_singleton, hquantize] at hcode
    have hfirst := congrArg (fun values => values.head?) (Except.ok.inj hcode)
    have hx : (⟨0x7F7FFFFF, rfl⟩ : Single) ∈ largest.values := List.mem_cons_self
    have hexponent : largest.exponent = 254 := by decide
    have hsigned : signed 0x7F7FFFFF = 16777215 := by decide
    have hcarry : largest.quantizeExponent = 255 := by
      have hshift : MANTISSA_SHIFT + (largest.exponent - exp 0x7F7FFFFF) = 17 := by decide
      have hround : roundEven (Block.scaled largest.exponent ⟨0x7F7FFFFF, rfl⟩) = 128 := by
        rw [roundEven_eq_iff, scaled_eq hx (largest.exp_le hx), hshift, hsigned]
        norm_num
      unfold Block.quantizeExponent
      rw [if_pos (List.mem_map.2 ⟨_, hx, hround⟩), hexponent]
    have hround : roundEven (Block.scaled 255 ⟨0x7F7FFFFF, rfl⟩) = 64 := by
      have hshift : MANTISSA_SHIFT + (255 - exp 0x7F7FFFFF) = 18 := by decide
      rw [roundEven_eq_iff, scaled_eq hx (by decide), hshift, hsigned]
      norm_num
    have hvalue : some (Converted.finite (roundEven (Block.scaled largest.quantizeExponent
        ⟨0x7F7FFFFF, rfl⟩) * 2 ^ ((largest.quantizeExponent : ℤ) - 133))) =
        some (heldSingle (roundEven (Block.scaled largest.quantizeExponent
          ⟨0x7F7FFFFF, rfl⟩) * 2 ^ ((largest.quantizeExponent : ℤ) - 133))) := hfirst
    rw [hcarry, hround, heldSingle, if_neg (by norm_num)] at hvalue
    simp at hvalue

end MlirAie.Bfp
