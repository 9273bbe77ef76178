import Mathlib

/-!
# Cubes of bit strings

A cube fixes some bits of the numbers of a width: those its mask selects, to what its value has
there. Bits past the width do not count.

* `Cube.Within`: no bit set past the width or outside the mask;
* `Cube.exists_prime`: a cube that hits nothing lies in a largest one;
* `Cube.Spans`: the smallest cube around some numbers.
-/

namespace MlirAie.Lib

/-- `m & ~n`. -/
@[grind =] def andNot (m n : ℕ) : ℕ := m ^^^ (m &&& n)

@[simp] theorem testBit_andNot (m n i : ℕ) :
    (andNot m n).testBit i = (m.testBit i && !n.testBit i) := by
  rw [andNot, Nat.testBit_xor, Nat.testBit_and]
  cases m.testBit i <;> cases n.testBit i <;> rfl

theorem testBit_eq_false {m n i : ℕ} (hm : m < 2 ^ n) (hi : n ≤ i) : m.testBit i = false :=
  Nat.testBit_lt_two_pow (hm.trans_le (Nat.pow_le_pow_right Nat.two_pos hi))

theorem exists_testBit (n : ℕ) (f : ℕ → Bool) : ∃ m < 2 ^ n, ∀ i < n, m.testBit i = f i :=
  ⟨Nat.ofBits fun i : Fin n => f i, Nat.ofBits_lt_two_pow _, fun i hi => by
    rw [Nat.testBit_ofBits_lt _ i hi]⟩

/-- A mask and a value. -/
structure Cube where
  mask : ℕ
  value : ℕ
deriving DecidableEq, Repr, Inhabited

namespace Cube

variable {n : ℕ} {c d : Cube} {x : ℕ}

/-- `x` has the value on the bits of the mask. -/
def Matches (n : ℕ) (c : Cube) (x : ℕ) : Prop :=
  ∀ i < n, c.mask.testBit i = true → x.testBit i = c.value.testBit i

instance : Decidable (c.Matches n x) := by unfold Matches; infer_instance

/-- A number of the width is in both. -/
def Meets (n : ℕ) (c d : Cube) : Prop := ∃ x < 2 ^ n, c.Matches n x ∧ d.Matches n x

theorem meets_iff : c.Meets n d ↔ ∀ i < n, c.mask.testBit i = true → d.mask.testBit i = true →
    c.value.testBit i = d.value.testBit i := by
  constructor
  · rintro ⟨x, _, hc, hd⟩ i hi hci hdi
    rw [← hc i hi hci, hd i hi hdi]
  · intro h
    obtain ⟨x, hx, hbits⟩ := exists_testBit n fun i =>
      if c.mask.testBit i then c.value.testBit i else d.value.testBit i
    refine ⟨x, hx, fun i hi hci => ?_, fun i hi hdi => ?_⟩
    · rw [hbits i hi, if_pos hci]
    · rw [hbits i hi]
      split_ifs with hci
      exacts [h i hi hci hdi, rfl]

/-- No bit is set past the width, or in the value and not in the mask. -/
structure Within (n : ℕ) (c : Cube) : Prop where
  lt : c.mask < 2 ^ n
  sub : c.value &&& c.mask = c.value

namespace Within

theorem bit_sub (h : c.Within n) {i : ℕ} (hi : c.value.testBit i = true) :
    c.mask.testBit i = true := by
  have hbit := congrArg (Nat.testBit · i) h.sub
  simp only [Nat.testBit_and, hi, Bool.true_and] at hbit
  exact hbit

theorem value_lt (h : c.Within n) : c.value < 2 ^ n := by
  rw [← h.sub]
  exact (Nat.and_le_right).trans_lt h.lt

theorem value_bit_eq_false (h : c.Within n) {i : ℕ} (hi : c.mask.testBit i = false) :
    c.value.testBit i = false := by
  by_contra hv
  rw [Bool.not_eq_false] at hv
  rw [h.bit_sub hv] at hi
  cases hi

/-- A number is in such a cube where masking it gives the value. -/
theorem matches_iff (h : c.Within n) : c.Matches n x ↔ x &&& c.mask = c.value := by
  constructor
  · intro hx
    refine Nat.eq_of_testBit_eq fun i => ?_
    rw [Nat.testBit_and]
    cases hi : c.mask.testBit i with
    | false => rw [Bool.and_false, h.value_bit_eq_false hi]
    | true =>
      have hlt : i < n := by
        by_contra hle
        rw [testBit_eq_false h.lt (not_lt.1 hle)] at hi
        cases hi
      rw [Bool.and_true, hx i hlt hi]
  · rintro hx i _ hi
    rw [← hx, Nat.testBit_and, hi, Bool.and_true]

end Within

/-- The cube, without the bits that do not count. -/
def restrict (n : ℕ) (c : Cube) : Cube := ⟨c.mask % 2 ^ n, c.value &&& c.mask % 2 ^ n⟩

theorem within_restrict (n : ℕ) (c : Cube) : (c.restrict n).Within n where
  lt := Nat.mod_lt _ (Nat.two_pow_pos n)
  sub := by rw [restrict, Nat.and_assoc, Nat.and_self]

@[simp] theorem matches_restrict : (c.restrict n).Matches n x ↔ c.Matches n x := by
  refine forall₂_congr fun i hi => ?_
  simp only [restrict, Nat.testBit_mod_two_pow, hi, decide_true, Bool.true_and, Nat.testBit_and]
  refine imp_congr_right fun hm => ?_
  rw [hm, Bool.and_true]

/-! ## Largest cubes -/

/-- The cube that leaves bit `b` open. -/
def dropBit (b : ℕ) (c : Cube) : Cube := ⟨andNot c.mask (1 <<< b), andNot c.value (1 <<< b)⟩

theorem testBit_one_shiftLeft (b i : ℕ) : (1 <<< b).testBit i = decide (b = i) := by
  rw [Nat.one_shiftLeft, Nat.testBit_two_pow]

theorem matches_dropBit {b : ℕ} (h : c.Matches n x) : (c.dropBit b).Matches n x := by
  intro i hi hm
  simp only [dropBit, testBit_andNot, testBit_one_shiftLeft, Bool.and_eq_true,
    Bool.not_eq_true'] at hm ⊢
  rw [h i hi hm.1, hm.2, Bool.not_false, Bool.and_true]

theorem dropBit_mask_lt {b : ℕ} (hb : c.mask.testBit b = true) : (c.dropBit b).mask < c.mask := by
  refine Nat.lt_of_testBit b ?_ hb fun i hi => ?_
  · simp only [dropBit, testBit_andNot, testBit_one_shiftLeft, decide_true, Bool.not_true,
      Bool.and_false]
  · simp only [dropBit, testBit_andNot, testBit_one_shiftLeft, hi.ne, decide_false, Bool.not_false,
      Bool.and_true]

theorem Within.dropBit (h : c.Within n) (b : ℕ) : (c.dropBit b).Within n where
  lt := by
    refine (Nat.le_of_testBit fun i hi => ?_ : (c.dropBit b).mask ≤ c.mask).trans_lt h.lt
    simp only [Cube.dropBit, testBit_andNot, Bool.and_eq_true] at hi
    exact hi.1
  sub := by
    refine Nat.eq_of_testBit_eq fun i => ?_
    simp only [Cube.dropBit, Nat.testBit_and, testBit_andNot]
    cases hi : c.value.testBit i with
    | false => rfl
    | true =>
      rw [h.bit_sub hi]
      simp

/-- Leaving any bit of the mask open hits something. -/
def isPrime (n : ℕ) (hits : Cube → Bool) (c : Cube) : Bool :=
  (List.range n).all fun b => !c.mask.testBit b || hits (c.dropBit b)

/-- **A cube that hits nothing lies in a largest one.** -/
theorem exists_prime {hits : Cube → Bool} (hc : c.Within n) (hfree : hits c = false) :
    ∃ p : Cube, p.Within n ∧ hits p = false ∧ p.isPrime n hits = true ∧
      ∀ x, c.Matches n x → p.Matches n x := by
  induction hm : c.mask using Nat.strong_induction_on generalizing c with
  | _ m ih =>
    subst hm
    by_cases hprime : c.isPrime n hits = true
    · exact ⟨c, hc, hfree, hprime, fun _ hx => hx⟩
    · simp only [isPrime, List.all_eq_true, List.mem_range, not_forall, Bool.or_eq_true,
        Bool.not_eq_true', not_or, Bool.not_eq_false, Bool.not_eq_true] at hprime
      obtain ⟨b, _, hb, hdrop⟩ := hprime
      obtain ⟨p, hp, hfree, hprime, hsub⟩ :=
        ih _ (dropBit_mask_lt hb) (hc.dropBit b) hdrop rfl
      exact ⟨p, hp, hfree, hprime, fun x hx => hsub x (matches_dropBit hx)⟩

/-! ## Smallest cubes -/

/-- The cube holds what agrees with the numbers on every bit they agree on. -/
def Spans (n : ℕ) (c : Cube) (ids : List ℕ) : Prop :=
  ∀ x, c.Matches n x ↔ ∀ i < n, ∀ b, (∀ id ∈ ids, id.testBit i = b) → x.testBit i = b

theorem Spans.matches_of_mem {ids : List ℕ} (h : c.Spans n ids) {id : ℕ} (hid : id ∈ ids) :
    c.Matches n id :=
  (h id).2 fun _ _ _ hb => hb id hid

/-- The smallest cube around numbers lies in every cube that holds them. -/
theorem Spans.sub {ids : List ℕ} (h : c.Spans n ids) (hd : ∀ id ∈ ids, d.Matches n id)
    (hx : c.Matches n x) : d.Matches n x :=
  fun i hi hm => (h x).1 hx i hi _ fun id hid => hd id hid i hi hm

end Cube

end MlirAie.Lib
