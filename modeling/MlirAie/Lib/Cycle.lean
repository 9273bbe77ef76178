import Mathlib

/-!
# Streams emitted in blocks

A device emits a stream block by block, the `k`th block depending on `k` modulo a period. Devices
that emit the same stream over one period, in blocks of whatever size, emit the same stream over any
run of blocks that covers the same positions.

* `blocks`: the stream of consecutive blocks;
* **`Cyclic.blocks_eq`**: cutting one cyclic stream in two ways;
* `Cyclic.blocks_pass`: whole periods.
-/

namespace MlirAie.Lib

variable {α : Type*} {B C : ℕ → List α} {L M N P : ℕ}

/-- The stream of the blocks from the `k`th on, `r` of them. -/
@[grind =] def blocks (B : ℕ → List α) (k r : ℕ) : List α := (List.range' k r).flatMap B

/-- Blocks of length `L` that repeat every `N`. -/
structure Cyclic (B : ℕ → List α) (L N : ℕ) : Prop where
  length : ∀ k, (B k).length = L
  mod : ∀ k, B (k % N) = B k

@[simp] theorem blocks_zero (B : ℕ → List α) (k : ℕ) : blocks B k 0 = [] := rfl

@[simp] theorem blocks_one (B : ℕ → List α) (k : ℕ) : blocks B k 1 = B k := by
  simp [blocks]

theorem blocks_succ (B : ℕ → List α) (k r : ℕ) :
    blocks B k (r + 1) = B k ++ blocks B (k + 1) r := rfl

theorem blocks_add (B : ℕ → List α) (k r s : ℕ) :
    blocks B k (r + s) = blocks B k r ++ blocks B (k + r) s := by
  rw [blocks, ← List.range'_append_1, List.flatMap_append]
  rfl

theorem length_blocks (hlen : ∀ k, (B k).length = L) (k r : ℕ) :
    (blocks B k r).length = r * L := by
  induction r generalizing k with
  | zero => simp
  | succ r ih =>
    rw [blocks_succ, List.length_append, ih, hlen]
    ring

/-- The position `j` of the stream lies in the block `j / L`. -/
theorem getElem?_blocks (hlen : ∀ k, (B k).length = L) {k r j : ℕ} (hj : j < r * L) :
    (blocks B k r)[j]? = (B (k + j / L))[j % L]? := by
  induction r generalizing k j with
  | zero => omega
  | succ r ih =>
    rw [blocks_succ]
    by_cases hlt : j < L
    · rw [List.getElem?_append_left (by rwa [hlen]), Nat.div_eq_of_lt hlt, Nat.mod_eq_of_lt hlt,
        add_zero]
    · have hpos : 0 < L := Nat.pos_of_ne_zero fun h => by simp [h] at hj
      have hdiv : j / L = (j - L) / L + 1 := Nat.div_eq_sub_div hpos (not_lt.1 hlt)
      have hmod : j % L = (j - L) % L := Nat.mod_eq_sub_mod (not_lt.1 hlt)
      have hj' : j - L < r * L := by
        rw [add_mul] at hj
        omega
      rw [List.getElem?_append_right (by rw [hlen]; exact not_lt.1 hlt), hlen, ih hj', hdiv, hmod]
      congr 2
      ring

theorem getElem?_flatMap_length {β : Type*} {l : List α} {f : α → List β} {n : ℕ}
    (hlen : ∀ a ∈ l, (f a).length = n) (q : ℕ) {r : ℕ} (hr : r < n) :
    (l.flatMap f)[q * n + r]? = l[q]?.bind fun a => (f a)[r]? := by
  induction l generalizing q with
  | nil => simp
  | cons a l ih =>
    have ha := hlen a List.mem_cons_self
    rw [List.flatMap_cons]
    cases q with
    | zero =>
      rw [zero_mul, zero_add, List.getElem?_append_left (by omega)]
      rfl
    | succ q =>
      rw [List.getElem?_append_right (by rw [ha, Nat.succ_mul]; omega), ha, List.getElem?_cons_succ,
        ← ih (fun b hb => hlen b (List.mem_cons_of_mem _ hb))]
      congr 1
      rw [Nat.succ_mul]
      omega

theorem range_mul_flatMap (m n : ℕ) :
    List.range (m * n) = (List.range n).flatMap fun j => (List.range m).map (m * j + ·) := by
  induction n with
  | zero => simp
  | succ n ih => rw [Nat.mul_succ, List.range_add, ih, List.range_succ, List.flatMap_append,
      List.flatMap_singleton]

namespace Cyclic

theorem map {β : Type*} (h : Cyclic B L N) (f : α → β) : Cyclic (fun k => (B k).map f) L N where
  length k := by rw [List.length_map, h.length]
  mod k := by rw [h.mod]

theorem getElem?_eq (hB : Cyclic B L N) (hN : 0 < N) {k r j : ℕ} (hj : j < r * L) :
    (blocks B k r)[j]? = (blocks B 0 N)[(k * L + j) % (N * L)]? := by
  have hL : 0 < L := Nat.pos_of_ne_zero fun h => by simp [h] at hj
  have hpos : (k * L + j) / L = k + j / L := by
    rw [add_comm, Nat.add_mul_div_right _ _ hL, add_comm]
  have hmod : (k * L + j) % L = j % L := Nat.mul_add_mod_self_right k L j
  rw [getElem?_blocks hB.length hj,
    getElem?_blocks hB.length (Nat.mod_lt _ (Nat.mul_pos hN hL)), zero_add,
    Nat.mod_mul_left_div_self, Nat.mod_mul_left_mod, hpos, hmod, hB.mod]

/-- **One cyclic stream cut in blocks in two ways**: the blocks that start at one position and end
at one position emit the same. -/
theorem blocks_eq (hB : Cyclic B L N) (hC : Cyclic C M P) (hN : 0 < N) (hP : 0 < P)
    (hpass : blocks B 0 N = blocks C 0 P) {k r l s : ℕ} (hstart : k * L = l * M)
    (hlen : r * L = s * M) : blocks B k r = blocks C l s := by
  have hNP : N * L = P * M := by
    rw [← length_blocks hB.length 0 N, ← length_blocks hC.length 0 P, hpass]
  apply List.ext_getElem?
  intro j
  by_cases hj : j < r * L
  · rw [hB.getElem?_eq hN hj, hC.getElem?_eq hP (hlen ▸ hj), hpass, hstart, hNP]
  · rw [List.getElem?_eq_none (by rw [length_blocks hB.length]; omega),
      List.getElem?_eq_none (by rw [length_blocks hC.length]; omega)]

/-- A whole period, from a multiple of it on. -/
theorem blocks_pass (hB : Cyclic B L N) {k q : ℕ} (hk : k % N = 0) :
    blocks B k (q * N) = (List.replicate q (blocks B 0 N)).flatten := by
  have hone (m : ℕ) (hm : m % N = 0) : blocks B m N = blocks B 0 N := by
    have hmap : List.range' m N = (List.range' 0 N).map (m + ·) := by
      rw [List.map_add_range', add_zero]
    rw [blocks, hmap, List.flatMap_map, blocks]
    refine List.flatMap_congr fun i _ => ?_
    rw [← hB.mod (m + i), ← hB.mod i, Nat.add_mod, hm, zero_add, Nat.mod_mod]
  induction q generalizing k with
  | zero => simp
  | succ q ih =>
    rw [Nat.succ_mul, add_comm, blocks_add, hone k hk, ih (by rw [Nat.add_mod_right, hk]),
      List.replicate_succ, List.flatten_cons]

end Cyclic

end MlirAie.Lib
