import Mathlib

/-!
# Guard conditions

The unsigned 64-bit arithmetic host-side guards are built from, as its value at the operands the
runtime sequence runs with. Folding a constant operand changes no value.

* `GuardBuilder.add` … `GuardBuilder.multipleOf`: the builder's operations;
* `GuardBuilder.check`: a guard, its message when it fails.
-/

namespace MlirAie.Bd

abbrev I64 := BitVec 64

namespace GuardBuilder

def cst (c : ℕ) : I64 := BitVec.ofNat 64 c
def add (x y : I64) : I64 := x + y
def sub (x c : I64) : I64 := x - c
def mul (x y : I64) : I64 := x * y
def both (x y : Bool) : Bool := x && y
def either (x y : Bool) : Bool := x || y
def eq (x y : I64) : Bool := x == y
def ule (x c : I64) : Bool := x.ule c

/-- `1 <= x <= hi` as one unsigned compare: `x - 1` wraps `0` to the greatest value. -/
def inRange1 (x hi : I64) : Bool := ule (sub x 1) (hi - 1)

def multipleOf (x d : I64) : Bool := eq (x % d) 0

/-- A guard that must hold when the runtime sequence runs. -/
def check (cond : Bool) (message : String) : Except String Unit :=
  if cond then .ok () else .error message

/-! ## Values -/

@[simp] theorem toNat_cst {c : ℕ} (h : c < 2 ^ 64) : (cst c).toNat = c := by
  simp only [cst, BitVec.toNat_ofNat]
  omega

theorem ule_eq_decide (x c : I64) : ule x c = decide (x.toNat ≤ c.toNat) := rfl

theorem eq_eq_decide (x y : I64) : eq x y = decide (x.toNat = y.toNat) := by
  simp [eq, ← BitVec.toNat_inj, beq_eq_decide]

theorem inRange1_eq_decide (x hi : I64) (h : hi ≠ 0) :
    inRange1 x hi = decide (1 ≤ x.toNat ∧ x.toNat ≤ hi.toNat) := by
  have hhi : 1 ≤ hi.toNat := by
    by_contra h0
    exact h (BitVec.eq_of_toNat_eq (by simpa using (by omega : hi.toNat = 0)))
  have hone : (1 : I64).toNat = 1 := rfl
  have hx := x.isLt
  have hhi' := hi.isLt
  simp only [inRange1, ule_eq_decide, sub, BitVec.toNat_sub, hone]
  exact decide_eq_decide.2 (by omega)

theorem multipleOf_eq_decide (x d : I64) :
    multipleOf x d = decide (x.toNat % d.toNat = 0) := by
  simp [multipleOf, eq_eq_decide, BitVec.toNat_umod]

end GuardBuilder

end MlirAie.Bd
