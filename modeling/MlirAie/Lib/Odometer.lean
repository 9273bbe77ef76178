import MlirAie.Lib.Strided

/-!
# Counters that wrap

A step counter reads off an index for each dimension: how often the dimensions inside it have gone
around, up to its own size. A dimension of size zero never goes around.

* `odometer`: the place after a number of steps;
* **`offsets_eq_odometer`**: a strided array is visited by its counter;
* `odometer_eq_self`, `rowMajor_of_odometer`: the counter of a row-major array counts.
-/

namespace MlirAie.Lib

/-- How many steps a nest of dimensions takes. -/
def span (dims : List (ℕ × ℕ)) : ℕ := (dims.map Prod.fst).prod

/-- The place after `k` steps; sizes and strides, outermost first. -/
def odometer : List (ℕ × ℕ) → ℕ → ℕ
  | [], _ => 0
  | (n, t) :: dims, k => k / span dims % n * t + odometer dims k

attribute [local simp] odometer

theorem span_cons (n t : ℕ) (dims : List (ℕ × ℕ)) : span ((n, t) :: dims) = n * span dims := by
  rw [span, List.map_cons, List.prod_cons, span]

theorem span_append (front dims : List (ℕ × ℕ)) :
    span (front ++ dims) = span front * span dims := by
  rw [span, List.map_append, List.prod_append, span, span]

theorem odometer_add_mul {dims : List (ℕ × ℕ)} {m k : ℕ} (h : span dims ∣ m) :
    odometer dims (k + m) = odometer dims k := by
  induction dims with
  | nil => rfl
  | cons d dims ih =>
    obtain ⟨n, t⟩ := d
    rw [span_cons] at h
    rw [odometer, odometer, ih ((Nat.dvd_mul_left _ _).trans h)]
    congr 2
    obtain ⟨c, rfl⟩ := h
    rcases Nat.eq_zero_or_pos (span dims) with hzero | hpos
    · rw [hzero, mul_zero, zero_mul, add_zero]
    · rw [mul_assoc, mul_left_comm, Nat.add_mul_div_left _ _ hpos, Nat.add_mul_mod_self_left]

theorem range_mul (n m : ℕ) :
    List.range (n * m) = (List.range n).flatMap fun i => (List.range m).map (i * m + ·) := by
  induction n with
  | zero => simp
  | succ n ih =>
    rw [Nat.succ_mul, List.range_add, ih, List.range_succ, List.flatMap_append]
    simp

/-- **A strided array is visited by its counter.** -/
theorem offsets_eq_odometer (dims : List (ℕ × ℕ)) :
    offsets (dims.map Prod.fst) (dims.map fun d => (d.2 : ℤ)) =
      (List.range (span dims)).map fun k => (odometer dims k : ℤ) := by
  induction dims with
  | nil => simp [offsets, span, odometer]
  | cons d dims ih =>
    obtain ⟨n, t⟩ := d
    rw [List.map_cons, List.map_cons, offsets_cons, ih, span_cons, range_mul, nest, run,
      List.flatMap_map, List.map_flatMap]
    refine List.flatMap_congr fun i hi => ?_
    simp only [List.map_map]
    refine List.map_congr_left fun k hk => ?_
    have hi' : i < n := List.mem_range.1 hi
    have hk' := List.mem_range.1 hk
    have hpos : 0 < span dims := by omega
    simp only [Function.comp_apply]
    rw [odometer, add_comm (i * span dims) k, odometer_add_mul (Nat.dvd_mul_left _ _),
      Nat.add_mul_div_right _ _ hpos, Nat.div_eq_of_lt hk', zero_add, zero_add,
      Nat.mod_eq_of_lt hi']
    push_cast
    ring

/-! ## Row-major -/

/-- The strides that are stepped are the numbers of steps inside. -/
def Dense : List (ℕ × ℕ) → Prop
  | [] => True
  | (n, t) :: dims => (1 < n → t = span dims) ∧ Dense dims

theorem odometer_eq_self {dims : List (ℕ × ℕ)} (h : Dense dims) (k : ℕ) (hk : k < span dims) :
    odometer dims k = k := by
  induction dims generalizing k with
  | nil =>
    simp only [span, List.map_nil, List.prod_nil, Nat.lt_one_iff] at hk
    exact hk.symm
  | cons d dims ih =>
    obtain ⟨n, t⟩ := d
    rw [span_cons] at hk
    have hpos : 0 < span dims := Nat.pos_of_ne_zero fun h => by simp [h] at hk
    have hmod := Nat.mod_lt k hpos
    have hsplit : odometer dims k = k % span dims := by
      conv_lhs => rw [← Nat.mod_add_div k (span dims)]
      rw [odometer_add_mul (Nat.dvd_mul_right _ _), ih h.2 _ hmod]
    have hindex : k / span dims < n := Nat.div_lt_of_lt_mul (by rwa [mul_comm])
    rw [odometer, hsplit, Nat.mod_eq_of_lt hindex]
    rcases Nat.lt_or_ge 1 n with hn | hn
    · rw [h.1 hn, mul_comm]
      exact Nat.div_add_mod k _
    · have hlt : k < span dims :=
        lt_of_lt_of_le hk (by simpa using Nat.mul_le_mul_right (span dims) hn)
      rw [Nat.div_eq_of_lt hlt, zero_mul, zero_add]
      exact Nat.mod_eq_of_lt hlt

/-- A dimension steps by its stride once what is inside it has gone around. -/
theorem odometer_span {front dims : List (ℕ × ℕ)} {n t : ℕ} (hpos : span dims ≠ 0) (hn : 1 < n) :
    odometer (front ++ (n, t) :: dims) (span dims) = t := by
  have hinner : odometer dims (span dims) = 0 := by
    have h := odometer_add_mul (k := 0) (dvd_refl (span dims))
    rw [zero_add] at h
    rw [h]
    clear h hpos
    induction dims with
    | nil => rfl
    | cons d dims ih => rw [odometer, Nat.zero_div, Nat.zero_mod, zero_mul, ih]
  induction front with
  | nil =>
    rw [List.nil_append, odometer, hinner, Nat.div_self (Nat.pos_of_ne_zero hpos),
      Nat.mod_eq_of_lt hn, one_mul, add_zero]
  | cons d front ih =>
    rw [List.cons_append, odometer, ih]
    have hlt : span dims / span (front ++ (n, t) :: dims) % d.1 = 0 := by
      rw [span_append, span_cons]
      rcases Nat.eq_zero_or_pos (span front) with hzero | hfront
      · rw [hzero, zero_mul, Nat.div_zero, Nat.zero_mod]
      · rw [Nat.div_eq_of_lt, Nat.zero_mod]
        have h1 : span dims < n * span dims :=
          lt_mul_of_one_lt_left (Nat.pos_of_ne_zero hpos) hn
        exact lt_of_lt_of_le h1 (Nat.le_mul_of_pos_left _ hfront)
    rw [hlt, zero_mul, zero_add]

theorem dense_of_odometer {front dims : List (ℕ × ℕ)} (hpos : span dims ≠ 0)
    (h : ∀ k < span dims, odometer (front ++ dims) k = k) : Dense dims := by
  induction dims generalizing front with
  | nil => trivial
  | cons d dims ih =>
    obtain ⟨n, t⟩ := d
    rw [span_cons] at hpos h
    have hn : n ≠ 0 := left_ne_zero_of_mul hpos
    have hdims : span dims ≠ 0 := right_ne_zero_of_mul hpos
    refine ⟨fun hone => ?_, @ih (front ++ [(n, t)]) hdims fun k hk => ?_⟩
    · rw [← h _ (lt_mul_of_one_lt_left (Nat.pos_of_ne_zero hdims) hone)]
      exact (odometer_span hdims hone).symm
    · rw [List.append_assoc]
      exact h k (lt_of_lt_of_le hk (Nat.le_mul_of_pos_left _ (Nat.pos_of_ne_zero hn)))

end MlirAie.Lib
