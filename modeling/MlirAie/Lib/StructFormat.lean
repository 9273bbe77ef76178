import MlirAie.Lib.Lists
import Mathlib

/-!
# Packed fields

Unsigned fields are packed with their least significant byte first and without padding, by the
widths of a format.

* `part`: a part of a buffer;
* `littleEndian`: a number in a width;
* **`packFields`**, **`unpackFields`**: the fields of a format; `unpackFields_packFields`.
-/

namespace MlirAie.Lib

/-! ## Slices -/

section Slice

variable {α : Type*} {xs ys : List α} {offset length : ℕ}

def part (xs : List α) (offset length : ℕ) : List α := (xs.drop offset).take length

theorem part_append_left (h : offset + length ≤ xs.length) (ys : List α) :
    part (xs ++ ys) offset length = part xs offset length := by
  unfold part
  rw [List.drop_append_of_le_length (by omega), List.take_append_of_le_length]
  rw [List.length_drop]
  omega

theorem part_append_right (xs ys : List α) (offset length : ℕ) :
    part (xs ++ ys) (xs.length + offset) length = part ys offset length := by
  unfold part
  rw [← List.drop_drop, List.drop_left]

theorem part_length (xs ys : List α) : part (xs ++ ys) xs.length ys.length = ys := by
  unfold part
  rw [List.drop_left, List.take_length]

end Slice

/-! ## Fields -/

def littleEndian : ℕ → ℕ → List UInt8
  | 0, _ => []
  | width + 1, n => UInt8.ofNat n :: littleEndian width (n / 256)

def ofLittleEndian (bytes : List UInt8) : ℕ := Nat.ofDigits 256 (bytes.map UInt8.toNat)

theorem length_littleEndian (width n : ℕ) : (littleEndian width n).length = width := by
  induction width generalizing n with
  | zero => rfl
  | succ width ih => rw [littleEndian, List.length_cons, ih]

theorem ofLittleEndian_littleEndian {width n : ℕ} (h : n < 256 ^ width) :
    ofLittleEndian (littleEndian width n) = n := by
  induction width generalizing n with
  | zero =>
    rw [pow_zero, Nat.lt_one_iff] at h
    rw [h]
    rfl
  | succ width ih =>
    have hrest : n / 256 < 256 ^ width := Nat.div_lt_of_lt_mul (by rwa [← pow_succ'])
    have hbyte : (UInt8.ofNat n).toNat = n % 256 := UInt8.toNat_ofNat'
    unfold ofLittleEndian at ih ⊢
    rw [littleEndian, List.map_cons, Nat.ofDigits_cons, ih hrest, hbyte]
    exact Nat.mod_add_div n 256

/-- The fields by their widths, unless there are too many or too few, or one is too large. -/
def packFields : List ℕ → List ℕ → Option (List UInt8)
  | [], [] => some []
  | width :: format, n :: fields =>
    if n < 256 ^ width then (packFields format fields).map fun rest => littleEndian width n ++ rest
    else none
  | _, _ => none

/-- The fields at the start of a buffer. -/
def unpackFields : List ℕ → List UInt8 → Option (List ℕ)
  | [], _ => some []
  | width :: format, bytes =>
    if bytes.length < width then none
    else (unpackFields format (bytes.drop width)).map fun rest =>
      ofLittleEndian (bytes.take width) :: rest

section Pack

variable {format fields : List ℕ} {bytes : List UInt8}

theorem length_packFields (h : packFields format fields = some bytes) :
    bytes.length = format.sum := by
  induction format generalizing fields bytes with
  | nil =>
    cases fields with
    | nil =>
      cases h
      rfl
    | cons => cases h
  | cons width format ih =>
    cases fields with
    | nil => cases h
    | cons n fields =>
      rw [packFields] at h
      split_ifs at h
      obtain ⟨rest, hrest, rfl⟩ := Option.map_eq_some_iff.1 h
      rw [List.length_append, length_littleEndian, ih hrest, List.sum_cons]

/-- **Packed fields are read back**, whatever follows them. -/
theorem unpackFields_packFields (h : packFields format fields = some bytes) (rest : List UInt8) :
    unpackFields format (bytes ++ rest) = some fields := by
  induction format generalizing fields bytes with
  | nil =>
    cases fields with
    | nil => rfl
    | cons => cases h
  | cons width format ih =>
    cases fields with
    | nil => cases h
    | cons n fields =>
      rw [packFields] at h
      split_ifs at h with hn
      obtain ⟨tail, htail, rfl⟩ := Option.map_eq_some_iff.1 h
      have hwidth := length_littleEndian width n
      have hlt : ¬(littleEndian width n ++ tail ++ rest).length < width := by
        rw [List.append_assoc, List.length_append, hwidth]
        omega
      rw [unpackFields, if_neg hlt, List.append_assoc, List.drop_left' hwidth,
        List.take_left' hwidth, ih htail, ofLittleEndian_littleEndian hn]
      rfl

end Pack

end MlirAie.Lib
