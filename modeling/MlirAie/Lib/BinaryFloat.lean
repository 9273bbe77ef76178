import Mathlib

/-!
# Binary floating point, on rationals

* `roundEven`: the nearest integer, ties to even; **`roundEven_eq_iff`** says so;
* `BinaryFormat.round`, `BinaryFormat.convert`: the nearest number of a format, and what becomes of
  numbers past its range;
* **`BinaryFormat.round_eq_self`**: numbers of the format stay as they are.
-/

namespace MlirAie.Lib

def roundEven (x : ℚ) : ℤ :=
  if x - ⌊x⌋ < 1 / 2 ∨ x - ⌊x⌋ = 1 / 2 ∧ Even ⌊x⌋ then ⌊x⌋ else ⌊x⌋ + 1

section RoundEven

variable {x : ℚ} {k : ℤ}

theorem floor_le_roundEven (x : ℚ) : ⌊x⌋ ≤ roundEven x := by
  unfold roundEven
  split_ifs <;> omega

theorem roundEven_le_floor_add_one (x : ℚ) : roundEven x ≤ ⌊x⌋ + 1 := by
  unfold roundEven
  split_ifs <;> omega

theorem roundEven_intCast (k : ℤ) : roundEven k = k := by
  unfold roundEven
  rw [Int.floor_intCast, sub_self, if_pos (Or.inl (by norm_num))]

theorem roundEven_le (h : x ≤ k) : roundEven x ≤ k := by
  rcases h.lt_or_eq with hlt | rfl
  · have hfloor : ⌊x⌋ < k := Int.floor_lt.2 hlt
    have := roundEven_le_floor_add_one x
    omega
  · rw [roundEven_intCast]

theorem le_roundEven (h : (k : ℚ) ≤ x) : k ≤ roundEven x :=
  (Int.le_floor.2 h).trans (floor_le_roundEven x)

theorem roundEven_le_iff (hk : Even k) : roundEven x ≤ k ↔ x ≤ k + 1 / 2 := by
  have hlo := Int.floor_le x
  have hhi := Int.lt_floor_add_one x
  rcases lt_trichotomy ⌊x⌋ k with hlt | heq | hgt
  · have hle : ((⌊x⌋ + 1 : ℤ) : ℚ) ≤ k := Int.cast_le.2 hlt
    push_cast at hle
    refine iff_of_true ((roundEven_le_floor_add_one x).trans hlt) (by linarith)
  · rw [roundEven, heq]
    constructor
    · intro h
      split_ifs at h with hnear
      · rcases hnear with hnear | ⟨hnear, -⟩ <;> linarith
      · omega
    · intro h
      rw [if_pos]
      rcases h.lt_or_eq with hlt | heq'
      · exact Or.inl (by linarith)
      · exact Or.inr ⟨by linarith, hk⟩
  · have hge : ((k + 1 : ℤ) : ℚ) ≤ ⌊x⌋ := Int.cast_le.2 hgt
    push_cast at hge
    refine iff_of_false (fun h => ?_) (by linarith)
    have := floor_le_roundEven x
    omega

theorem le_roundEven_iff (hk : Even k) : k ≤ roundEven x ↔ k - 1 / 2 ≤ x := by
  have hlo := Int.floor_le x
  have hhi := Int.lt_floor_add_one x
  rcases lt_trichotomy ⌊x⌋ (k - 1) with hlt | heq | hgt
  · have hle : ((⌊x⌋ + 1 : ℤ) : ℚ) ≤ (k - 1 : ℤ) := Int.cast_le.2 hlt
    push_cast at hle
    refine iff_of_false (fun h => ?_) (by linarith)
    have := roundEven_le_floor_add_one x
    omega
  · have hodd : ¬Even ⌊x⌋ := by
      rw [heq, Int.even_sub_one, not_not]
      exact hk
    have hcast : (⌊x⌋ : ℚ) = k - 1 := by exact_mod_cast heq
    constructor
    · intro h
      by_contra hnot
      rw [roundEven, if_pos (Or.inl (by linarith))] at h
      omega
    · intro h
      rw [roundEven, if_neg, heq]
      · omega
      · rintro (hnear | ⟨-, heven⟩)
        · linarith
        · exact hodd heven
  · have hge : (k : ℚ) ≤ ⌊x⌋ := Int.cast_le.2 (by omega)
    refine iff_of_true ?_ (by linarith)
    have := floor_le_roundEven x
    omega

/-- **`roundEven` is the nearest integer**, and the even one of two that are as near. -/
theorem roundEven_eq_iff :
    roundEven x = k ↔ |x - k| < 1 / 2 ∨ |x - k| = 1 / 2 ∧ Even k := by
  have hlo := Int.floor_le x
  have hhi := Int.lt_floor_add_one x
  rcases Int.even_or_odd k with hk | hk
  · rw [le_antisymm_iff, roundEven_le_iff hk, le_roundEven_iff hk]
    constructor
    · rintro ⟨hle, hge⟩
      rcases (abs_le.2 ⟨by linarith, by linarith⟩ : |x - k| ≤ 1 / 2).lt_or_eq with h | h
      · exact Or.inl h
      · exact Or.inr ⟨h, hk⟩
    · intro h
      have hle : |x - k| ≤ 1 / 2 := h.elim le_of_lt fun h => h.1.le
      obtain ⟨h₁, h₂⟩ := abs_le.1 hle
      exact ⟨by linarith, by linarith⟩
  · have hup : Even (k + 1) := hk.add_one
    have hdown : Even (k - 1) := by
      rw [Int.even_sub_one]
      exact Int.not_even_iff_odd.2 hk
    have hbetween : roundEven x = k ↔ ¬k + 1 ≤ roundEven x ∧ ¬roundEven x ≤ k - 1 := by omega
    rw [hbetween, le_roundEven_iff hup, roundEven_le_iff hdown]
    push_cast
    constructor
    · rintro ⟨hlt, hgt⟩
      exact Or.inl (abs_lt.2 ⟨by linarith, by linarith⟩)
    · rintro (h | ⟨-, heven⟩)
      · obtain ⟨h₁, h₂⟩ := abs_lt.1 h
        exact ⟨by linarith, by linarith⟩
      · exact absurd heven (Int.not_even_iff_odd.2 hk)

end RoundEven

/-! ## Formats -/

/-- Numbers `m * 2 ^ e` with `|m| < 2 ^ precision` and `minExp ≤ e`, below `2 ^ maxExp`. -/
structure BinaryFormat where
  precision : ℕ
  minExp : ℤ
  maxExp : ℤ

inductive Converted
  | finite (value : ℚ)
  | infinite (negative : Bool)
deriving DecidableEq

namespace BinaryFormat

def binary32 : BinaryFormat := ⟨24, -149, 128⟩

def binary64 : BinaryFormat := ⟨53, -1074, 1024⟩

variable (f : BinaryFormat)

/-- The exponent of the distance between the numbers of the format around `x`. -/
def spacing (x : ℚ) : ℤ := max (Int.log 2 |x| + 1 - f.precision) f.minExp

/-- The nearest number of the format, ties to even, for any exponent from the least on. -/
def round (x : ℚ) : ℚ := roundEven (x / 2 ^ f.spacing x) * 2 ^ f.spacing x

/-- The nearest number of the format, or infinity. -/
def convert (x : ℚ) : Converted :=
  if |f.round x| < 2 ^ f.maxExp then .finite (f.round x) else .infinite (x < 0)

/-- **Numbers of the format stay as they are.** -/
theorem round_eq_self {m e : ℤ} (hm : |m| < 2 ^ f.precision) (he : f.minExp ≤ e) :
    f.round (m * 2 ^ e) = m * 2 ^ e := by
  have htwo : (0 : ℚ) < 2 := by norm_num
  have hspacing : f.spacing (m * 2 ^ e) ≤ e ∨ m = 0 := by
    rcases eq_or_ne m 0 with hzero | hne
    · exact Or.inr hzero
    · refine Or.inl (max_le ?_ he)
      have hpos : (0 : ℚ) < |(m : ℚ) * 2 ^ e| :=
        abs_pos.2 (mul_ne_zero (Int.cast_ne_zero.2 hne) (zpow_ne_zero e htwo.ne'))
      have hlt : |(m : ℚ) * 2 ^ e| < 2 ^ ((f.precision : ℤ) + e) := by
        rw [abs_mul, abs_of_pos (zpow_pos htwo e), zpow_add₀ htwo.ne', zpow_natCast]
        refine mul_lt_mul_of_pos_right ?_ (zpow_pos htwo e)
        exact_mod_cast hm
      have hlog := (Int.lt_zpow_iff_log_lt (by norm_num : 1 < 2) hpos).1 (by exact_mod_cast hlt)
      omega
  rcases hspacing with hle | rfl
  · have hquotient : (m : ℚ) * 2 ^ e / 2 ^ f.spacing (m * 2 ^ e) =
        ((m * 2 ^ (e - f.spacing (m * 2 ^ e)).toNat : ℤ) : ℚ) := by
      rw [mul_div_assoc, ← zpow_sub₀ htwo.ne']
      push_cast
      rw [← zpow_natCast (2 : ℚ), Int.toNat_of_nonneg (by omega)]
    rw [round, hquotient, roundEven_intCast, ← hquotient,
      div_mul_cancel₀ _ (zpow_ne_zero _ htwo.ne')]
  · unfold round
    simp [show roundEven 0 = 0 from roundEven_intCast 0]

end BinaryFormat

end MlirAie.Lib
