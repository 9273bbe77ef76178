import MlirAie.Bd.Encode

/-!
# What the guards of a descriptor exclude

The guards are unsigned 64-bit compares. Where they all hold every field of the descriptor holds the
number it stands for, and no product wraps, as long as the limit of d0 is not zero: an element so
wide that no wrap holds one makes the range test accept every size.

* `BdRequest.Accepted`, `accepted_of_ok`: the guards as numbers;
* `exact_of_bounds`: extents in range; `exact_of_narrow`: an element that a wrap holds;
* **`encodeBdCommon_exact_iff`**: accepted descriptors are exact where one element fits.
-/

namespace MlirAie.Bd

open GuardBuilder

/-! ## Fields and products as numbers -/

/-- The masked field is the number. -/
def Holds (f : DmaBdField) (v : BitVec 32) (n : ℕ) : Prop := (v &&& f.mask).toNat = n

theorem toNat_and_mask (f : DmaBdField) (v : BitVec 32) :
    (v &&& f.mask).toNat = v.toNat % 2 ^ f.width := by
  unfold DmaBdField.mask
  split_ifs with h
  · have hpow : 2 ^ 32 ≤ 2 ^ f.width := Nat.pow_le_pow_right (by decide) h
    change (v &&& BitVec.allOnes 32).toNat = _
    rw [BitVec.and_allOnes, Nat.mod_eq_of_lt (v.isLt.trans_le hpow)]
  · have hlt : f.width < 32 := by omega
    have hpow : 2 ^ f.width < 2 ^ 32 := Nat.pow_lt_pow_right (by decide) hlt
    have hmask : (((1 <<< f.width : ℕ) : BitVec 32) - 1).toNat = 2 ^ f.width - 1 := by
      have hone := Nat.one_le_two_pow (n := f.width)
      rw [BitVec.natCast_eq_ofNat, Nat.one_shiftLeft, BitVec.toNat_sub, BitVec.toNat_ofNat,
        Nat.mod_eq_of_lt hpow]
      change (2 ^ 32 - 1 + 2 ^ f.width) % 2 ^ 32 = _
      omega
    rw [BitVec.toNat_and, hmask, Nat.and_two_pow_sub_one_eq_mod]

theorem holds_truncate {f : DmaBdField} {v : I64} {n : ℕ} (hw : f.width ≤ 32) :
    Holds f (v.truncate 32) n ↔ v.toNat % 2 ^ f.width = n := by
  rw [Holds, toNat_and_mask, BitVec.truncate_eq_setWidth, BitVec.toNat_setWidth,
    Nat.mod_mod_of_dvd _ (Nat.pow_dvd_pow 2 hw)]

theorem Holds.lt {f : DmaBdField} {v : BitVec 32} {n : ℕ} (h : Holds f v n) : n < 2 ^ f.width := by
  rw [← h, toNat_and_mask]
  exact Nat.mod_lt _ (Nat.two_pow_pos _)

theorem holds_of_lt {f : DmaBdField} {v : I64} {n : ℕ} (hw : f.width ≤ 32) (h : v.toNat = n)
    (hn : n < 2 ^ f.width) : Holds f (v.truncate 32) n := by
  rw [holds_truncate hw, h, Nat.mod_eq_of_lt hn]

namespace BdRequest

variable (r : BdRequest)

def size (i : Fin 4) : ℕ := (r.inS i).toNat
def stride (i : Fin 4) : ℕ := (r.inT i).toNat

def granules : ℕ := r.size 0 * r.elemWidth / r.gran

/-- A stride in granules, less the one that the field leaves out. -/
def step (i : Fin 4) : ℕ := r.stride i * r.elemWidth / r.gran - 1

/-- **Every field that is packed holds its number.** In linear mode the wraps and the steps of d0 to
d2 are not packed; a step counts where its dimension has more than one index. -/
structure Exact (layout : DmaBdLayout) (e : EncodedBd) : Prop where
  bufferLength : Holds layout.bufferLength e.bufLen (r.granules * r.size 1 * r.size 2)
  d0Size : r.isLinear = false → Holds layout.d0Size (e.hwS 0) r.granules
  d1Size : r.isLinear = false → Holds layout.d1Size (e.hwS 1) (r.size 1)
  d0Stride : r.isLinear = false → 1 < r.size 0 →
    Holds layout.d0Stride (e.hwT 0) (if r.elemWidth > r.gran then 0 else r.step 0)
  d1Stride : r.isLinear = false → 1 < r.size 1 → Holds layout.d1Stride (e.hwT 1) (r.step 1)
  d2Stride : r.isLinear = false → 1 < r.size 2 → Holds layout.d2Stride (e.hwT 2) (r.step 2)
  iterationSize : Holds layout.iterationSize e.iterSizeField
    (if r.stride 3 = 0 then 0 else r.size 3 - 1)
  iterationStride : 1 < r.size 3 → 0 < r.stride 3 →
    Holds layout.iterationStride (e.hwT 3) (r.step 3)

/-- **No product wraps** that the fields or the guards are computed with. -/
structure NoWrap : Prop where
  d0 : r.size 0 * r.elemWidth < 2 ^ 64
  inner : r.granules * r.size 1 < 2 ^ 64
  extent : r.granules * r.size 1 * r.size 2 < 2 ^ 64
  strides : r.isLinear = false → ∀ i : Fin 4, i < 3 → 1 < r.size i →
    r.stride i * r.elemWidth < 2 ^ 64
  iteration : 1 < r.size 3 → r.stride 3 * r.elemWidth < 2 ^ 64
  length : ∀ len, r.lenElems = some len → r.gran ≤ r.elemWidth →
    len.value.toNat * (r.elemWidth / r.gran) < 2 ^ 64

/-- One element fits the limit of d0; or there is no element at all, and the steps and the length
that are given have limits of their own. -/
def Fitting : Prop :=
  r.elemWidth ≤ r.wrapLimit * r.gran ∨ r.size 0 = 0 ∧
    (r.isLinear = false → 1 < r.size 1 ∨ 1 < r.size 2 →
      r.elemWidth ≤ 2 ^ r.tm.getDmaBdStepBits r.tile * r.gran) ∧
    ∀ len, r.lenElems = some len → r.elemWidth ≤ r.maxLen * r.gran ∨ len.value.toNat = 0

/-! ## Limits -/

def FamilyLayout (layout : DmaBdLayout) : Prop :=
  ∃ tileType bursts, r.tm = AIE2TargetModel tileType bursts ∧
    r.tm.getDmaBdLayout r.tile = some layout

structure Limits (layout : DmaBdLayout) : Prop where
  gran : r.gran = 32
  bufferLength : r.maxLen + 1 = 2 ^ layout.bufferLength.width
  lengthWidth : layout.bufferLength.width ≤ 32
  d0Size : layout.d0Size.width = r.tm.getDmaBdWrapBits r.tile
  d1Size : layout.d1Size.width = r.tm.getDmaBdWrapBits r.tile
  wrap : 1 ≤ r.tm.getDmaBdWrapBits r.tile ∧ r.tm.getDmaBdWrapBits r.tile ≤ 10
  wrap_le : r.wrapMax ≤ r.maxLen
  d0Stride : layout.d0Stride.width = r.tm.getDmaBdStepBits r.tile
  d1Stride : layout.d1Stride.width = r.tm.getDmaBdStepBits r.tile
  d2Stride : layout.d2Stride.width = r.tm.getDmaBdStepBits r.tile
  iterationStride : layout.iterationStride.width = r.tm.getDmaBdStepBits r.tile
  step : 10 < r.tm.getDmaBdStepBits r.tile ∧ r.tm.getDmaBdStepBits r.tile ≤ 20
  iterationSize : layout.iterationSize.width = 6
  iterations : r.maxIterations = 64
  repeats : r.maxRepeats = 256

variable {r}

theorem FamilyLayout.limits {layout : DmaBdLayout} (h : r.FamilyLayout layout) :
    r.Limits layout := by
  obtain ⟨tm, col, row, sizes, strides, ew, len⟩ := r
  obtain ⟨tileType, bursts, rfl, hlayout⟩ := h
  cases htile : tileType col row with
  | CoreTile =>
    simp only [tile, AIE2TargetModel, htile, AIE2.getDmaBdLayout, Option.some_inj] at hlayout
    subst hlayout
    constructor <;> simp [BdRequest.gran, maxLen, wrapMax, maxIterations, maxRepeats, tile,
      AIE2TargetModel, htile, AIE2.getDmaBdLimits, AIE2.getDmaBdLayout, makeAIE2CoreTileBdLayout,
      DmaBdField.mask]
  | MemTile =>
    simp only [tile, AIE2TargetModel, htile, AIE2.getDmaBdLayout, Option.some_inj] at hlayout
    subst hlayout
    constructor <;> simp [BdRequest.gran, maxLen, wrapMax, maxIterations, maxRepeats, tile,
      AIE2TargetModel, htile, AIE2.getDmaBdLimits, AIE2.getDmaBdLayout, makeAIE2MemTileBdLayout,
      DmaBdField.mask]
  | ShimNOCTile =>
    simp only [tile, AIE2TargetModel, htile, AIE2.getDmaBdLayout, Option.some_inj] at hlayout
    subst hlayout
    constructor <;> simp [BdRequest.gran, maxLen, wrapMax, maxIterations, maxRepeats, tile,
      AIE2TargetModel, htile, AIE2.getDmaBdLimits, AIE2.getDmaBdLayout, makeAIE2ShimBdLayout,
      DmaBdField.mask]
  | ShimPLTile =>
    simp only [tile, AIE2TargetModel, htile, AIE2.getDmaBdLayout] at hlayout
    cases hlayout

/-! ## The guards as numbers -/

/-- **What the guards say**, where a limit of zero says nothing. -/
structure Accepted : Prop where
  size : ∀ i, r.sizeHi i ≠ 0 → 1 ≤ r.size i ∧ r.size i ≤ r.sizeHi i
  iteration : r.stride 3 = 0 ∨ (sub (r.inS 3) 1).toNat ≤ r.maxIterations - 1
  stride : r.isLinear = false → ∀ i : Fin 4, i < 3 → (i = 0 → r.elemWidth ≤ r.gran) →
    1 < r.size i → r.maxStride ≠ 0 → 1 ≤ r.stride i ∧ r.stride i ≤ r.maxStride
  iterationStride : 1 < r.size 3 → r.stride 3 ≤ r.maxStride
  unitStride : r.elemWidth ≠ r.gran → 1 < r.size 0 → r.stride 0 = 1
  wholeSize : r.gran ∣ r.size 0 * r.elemWidth
  wholeStride : ∀ i : Fin 4, i ≠ 0 → r.gran ∣ r.stride i * r.elemWidth
  length : r.maxLen < r.lenMax → r.d0d1.toNat ≤ r.maxLen ∧ r.bufLen.toNat ≤ r.maxLen
  explicit : ∀ len, r.lenElems = some len →
    (r.maxLen * r.gran / r.elemWidth ≠ 0 → len.value.toNat ≤ r.maxLen * r.gran / r.elemWidth) ∧
      r.lenGranules len.value = r.bufLen

theorem sizeGuard_mem (i : Fin 4) : r.sizeGuard i ∈ r.guards := by simp [guards]

theorem iterationGuard_mem : r.iterationGuard ∈ r.guards := by simp [guards]

theorem strideGuard_mem {i : Fin 4} (h : r.stepGuarded i = true) : r.strideGuard i ∈ r.guards := by
  simp only [guards, List.mem_append]
  exact Or.inl (Or.inl (Or.inl (Or.inl (Or.inr
    (List.mem_map_of_mem (List.mem_filter.2 ⟨List.mem_finRange i, h⟩))))))

theorem unitStrideGuard_mem (h : r.elemWidth ≠ r.gran) : r.unitStrideGuard ∈ r.guards := by
  simp [guards, h]

theorem multipleGuard_mem {g : Guard} (h : 1 < r.divisor)
    (hg : g ∈ [r.multipleGuard (r.inS 0) "d0 size", r.multipleGuard (r.inT 1) "d1 stride",
      r.multipleGuard (r.inT 2) "d2 stride", r.multipleGuard (r.inT 3) "iteration stride"]) :
    g ∈ r.guards := by
  simp only [guards, List.mem_append, if_pos h]
  exact Or.inl (Or.inl (Or.inr hg))

theorem lenGuard_mem (h : r.maxLen < r.lenMax) : r.lenGuard ∈ r.guards := by
  simp only [guards, List.mem_append, if_pos h]
  exact Or.inl (Or.inr (List.mem_singleton_self _))

theorem explicitGuards_mem {len : Operand} {g : Guard} (h : r.lenElems = some len)
    (hg : g ∈ r.explicitGuards len.value) : g ∈ r.guards := by
  simp only [guards, List.mem_append, h]
  exact Or.inr hg

theorem gran_dvd_mul {n : ℕ} (h : r.divisor ∣ n) : r.gran ∣ n * r.elemWidth := by
  have hdvd : r.gran ∣ r.divisor * r.elemWidth := by
    unfold divisor bdGranuleDivisor
    rw [← Nat.mul_div_right_comm (Nat.gcd_dvd_right _ _),
      Nat.mul_div_assoc _ (Nat.gcd_dvd_left _ _)]
    exact dvd_mul_right _ _
  exact hdvd.trans (Nat.mul_dvd_mul_right h _)

theorem inRange1_iff {x : I64} {hi : ℕ} (hhi : hi < 2 ^ 64) (h : hi ≠ 0) :
    inRange1 x (cst hi) = true ↔ 1 ≤ x.toNat ∧ x.toNat ≤ hi := by
  have hne : cst hi ≠ 0 := fun heq => h (by rw [← toNat_cst hhi, heq]; rfl)
  rw [inRange1_eq_decide _ _ hne, toNat_cst hhi, decide_eq_true_iff]

theorem ule_cst_iff {x : I64} {c : ℕ} (hc : c < 2 ^ 64) : ule x (cst c) = true ↔ x.toNat ≤ c := by
  rw [ule_eq_decide, toNat_cst hc, decide_eq_true_iff]

theorem Limits.maxLen_lt {layout : DmaBdLayout} (hl : r.Limits layout) : r.maxLen < 2 ^ 32 := by
  have hpow := Nat.pow_le_pow_right (n := 2) (by decide) hl.lengthWidth
  have hlen := hl.bufferLength
  omega

theorem Limits.wrapLimit_pos {layout : DmaBdLayout} (hl : r.Limits layout) :
    1 ≤ r.wrapLimit ∧ r.wrapLimit ≤ r.maxLen := by
  have hpow : 2 ^ 1 ≤ 2 ^ r.tm.getDmaBdWrapBits r.tile := Nat.pow_le_pow_right (by decide) hl.wrap.1
  have hone : 1 ≤ r.wrapMax := by unfold wrapMax; omega
  have hle := hl.wrap_le
  unfold wrapLimit
  split_ifs <;> omega

theorem Limits.maxStride_le {layout : DmaBdLayout} (hl : r.Limits layout) :
    r.maxStride ≤ 2 ^ 20 * 32 := by
  unfold maxStride
  rw [hl.gran]
  exact (Nat.div_le_self _ _).trans
    (Nat.mul_le_mul_right _ (Nat.pow_le_pow_right (by decide) hl.step.2))

theorem Limits.sizeHi_lt {layout : DmaBdLayout} (hl : r.Limits layout) (i : Fin 4) :
    r.sizeHi i < 2 ^ 64 := by
  have hmax := hl.maxLen_lt
  have hwrap := hl.wrapLimit_pos.2
  have hrep := hl.repeats
  match i with
  | 0 =>
    have hdiv := Nat.div_le_self (r.wrapLimit * r.gran) r.elemWidth
    have hgran := hl.gran
    change r.wrapLimit * r.gran / r.elemWidth < 2 ^ 64
    rw [hgran] at hdiv ⊢
    omega
  | 1 => change r.wrapLimit < 2 ^ 64; omega
  | 2 => change r.maxLen < 2 ^ 64; omega
  | 3 => change r.maxRepeats < 2 ^ 64; omega

theorem Limits.maxElems_lt {layout : DmaBdLayout} (hl : r.Limits layout) :
    r.maxLen * r.gran / r.elemWidth < 2 ^ 64 := by
  have hmax := hl.maxLen_lt
  have hdiv := Nat.div_le_self (r.maxLen * r.gran) r.elemWidth
  rw [hl.gran] at hdiv ⊢
  omega

/-- **What a success has established.** -/
theorem accepted_of_ok {layout : DmaBdLayout} {e : EncodedBd} (hl : r.Limits layout)
    (h : r.encodeBdCommon = .ok e) : r.Accepted := by
  have hall : ∀ g ∈ r.guards, g.cond = true := by
    unfold encodeBdCommon at h
    cases hc : checkAll r.guards with
    | error m => rw [hc] at h; cases h
    | ok u => exact checkAll_eq_ok.1 hc
  have hdiv : 1 < r.divisor → r.divisor < 2 ^ 64 := fun _ =>
    (Nat.div_le_self _ _).trans_lt (by rw [hl.gran]; decide)
  have hstride : r.maxStride < 2 ^ 64 := hl.maxStride_le.trans_lt (by decide)
  have hwhole : ∀ x : I64, (1 < r.divisor → multipleOf x (cst r.divisor) = true) →
      r.gran ∣ x.toNat * r.elemWidth := by
    intro x hx
    refine gran_dvd_mul ?_
    by_cases hone : 1 < r.divisor
    · have hmul := hx hone
      rw [multipleOf_eq_decide, toNat_cst (hdiv hone), decide_eq_true_iff] at hmul
      exact Nat.dvd_of_mod_eq_zero hmul
    · have hpos : 0 < r.divisor := Nat.div_pos (Nat.gcd_le_right _ (by rw [hl.gran]; decide))
        (Nat.gcd_pos_of_pos_right _ (by rw [hl.gran]; decide))
      rw [show r.divisor = 1 by omega]
      exact one_dvd _
  constructor
  case size =>
    intro i hi
    exact (inRange1_iff (hl.sizeHi_lt i) hi).1 (hall _ (sizeGuard_mem i))
  case iteration =>
    have hg := hall _ iterationGuard_mem
    have hit : r.maxIterations - 1 < 2 ^ 64 := by rw [hl.iterations]; decide
    simp only [iterationGuard, either, Bool.or_eq_true, ule_cst_iff hit, eq_eq_decide,
      decide_eq_true_iff] at hg
    exact hg
  case stride =>
    intro hlin i hi hgran hsize hmax
    have hstep : r.stepGuarded i = true := by
      simp only [stepGuarded, hlin, Bool.false_or, Bool.not_eq_true', Bool.and_eq_false_iff,
        decide_eq_false_iff_not, beq_eq_false_iff_ne]
      by_cases h0 : i = 0
      · exact Or.inr (Or.inr (by have := hgran h0; omega))
      · exact Or.inr (Or.inl h0)
    have hg := hall _ (strideGuard_mem hstep)
    have h3 : i ≠ 3 := by omega
    have hone : ¬ (r.inS i).toNat ≤ 1 := not_le.2 hsize
    simp only [strideGuard, either, Bool.or_eq_true, if_neg h3] at hg
    exact (inRange1_iff hstride hmax).1
      (hg.resolve_left fun h1 => hone (by simpa [ule_eq_decide] using h1))
  case iterationStride =>
    intro hsize
    have hg := hall _ (strideGuard_mem (i := 3) rfl)
    have hone : ¬ (r.inS 3).toNat ≤ 1 := not_le.2 hsize
    simp only [strideGuard, either, Bool.or_eq_true, if_true, ule_cst_iff hstride] at hg
    exact hg.resolve_left fun h1 => hone (by simpa [ule_eq_decide] using h1)
  case unitStride =>
    intro hne hsize
    have hg := hall _ (unitStrideGuard_mem hne)
    have hone : ¬ (r.inS 0).toNat ≤ 1 := not_le.2 hsize
    simp only [unitStrideGuard, either, Bool.or_eq_true, eq_eq_decide, decide_eq_true_iff] at hg
    exact hg.resolve_left fun h1 => hone (by simpa [ule_eq_decide] using h1)
  case wholeSize =>
    exact hwhole _ fun hone => hall (r.multipleGuard (r.inS 0) "d0 size")
      (multipleGuard_mem hone (by simp))
  case wholeStride =>
    intro i hi
    match i, hi with
    | 1, _ =>
      exact hwhole _ fun hone => hall (r.multipleGuard (r.inT 1) "d1 stride")
        (multipleGuard_mem hone (by simp))
    | 2, _ =>
      exact hwhole _ fun hone => hall (r.multipleGuard (r.inT 2) "d2 stride")
        (multipleGuard_mem hone (by simp))
    | 3, _ =>
      exact hwhole _ fun hone => hall (r.multipleGuard (r.inT 3) "iteration stride")
        (multipleGuard_mem hone (by simp))
  case length =>
    intro hlen
    have hg := hall _ (lenGuard_mem hlen)
    have hmax : r.maxLen < 2 ^ 64 := hl.maxLen_lt.trans (by decide)
    simp only [lenGuard, both, Bool.and_eq_true, ule_cst_iff hmax] at hg
    exact hg
  case explicit =>
    intro len hlen
    refine ⟨fun hmax => ?_, ?_⟩
    · exact ((inRange1_iff hl.maxElems_lt hmax).1
        (hall _ (explicitGuards_mem hlen (List.mem_append_left _
          (List.mem_append_left _ (List.mem_singleton_self _)))))).2
    · have hg := hall _ (explicitGuards_mem hlen (List.mem_append_right _
        (List.mem_singleton_self _)))
      simpa [eq] using hg

/-! ## The encoder as numbers -/

theorem fields_of_ok {e : EncodedBd} (h : r.encodeBdCommon = .ok e) :
    (∀ i, e.hwS i = (r.hwS i).truncate 32) ∧ (∀ i, e.hwT i = (r.hwT i).truncate 32) ∧
      e.bufLen = r.bufLen.truncate 32 ∧ e.iterSizeField =
        (SsaStridePolicy.selectGT0 (r.inT 3) (r.hwS 3) (SsaStridePolicy.cst 0)).truncate 32 := by
  unfold encodeBdCommon at h
  cases hc : checkAll r.guards with
  | error m => rw [hc] at h; cases h
  | ok u =>
    rw [hc] at h
    cases h
    exact ⟨fun _ => rfl, fun _ => rfl, rfl, rfl⟩

theorem exists_ok_of_guards (h : ∀ g ∈ r.guards, g.cond = true) :
    ∃ e, r.encodeBdCommon = .ok e := by
  unfold encodeBdCommon
  rw [(checkAll_eq_ok (u := ())).2 h]
  exact ⟨_, rfl⟩

variable {layout : DmaBdLayout}

theorem toNat_scaled (hl : r.Limits layout) (hew : r.elemWidth < 2 ^ 64) {x : I64}
    (h : x.toNat * r.elemWidth < 2 ^ 64) :
    (x * cst r.elemWidth / cst r.gran).toNat = x.toNat * r.elemWidth / r.gran := by
  rw [BitVec.toNat_udiv, BitVec.toNat_mul, toNat_cst hew, Nat.mod_eq_of_lt h,
    toNat_cst (by rw [hl.gran]; decide)]

theorem toNat_sub_one {x : I64} (h : 1 ≤ x.toNat) : (x - 1).toNat = x.toNat - 1 := by
  have hx := x.isLt
  rw [BitVec.toNat_sub, show BitVec.toNat (1 : I64) = 1 from rfl]
  omega

theorem holds_step (hl : r.Limits layout) (hpos : 0 < r.elemWidth) (hew : r.elemWidth < 2 ^ 64)
    {f : DmaBdField} (hf : f.width = r.tm.getDmaBdStepBits r.tile) {x : I64} (hx : 1 ≤ x.toNat)
    (hle : x.toNat ≤ r.maxStride) (hwhole : r.gran ∣ x.toNat * r.elemWidth) :
    x.toNat * r.elemWidth < 2 ^ 64 ∧
      Holds f ((biasedStride SsaStridePolicy r.elemWidth r.gran x).truncate 32)
        (x.toNat * r.elemWidth / r.gran - 1) := by
  have hgran : 0 < r.gran := by rw [hl.gran]; decide
  have hbytes : x.toNat * r.elemWidth ≤ 2 ^ r.tm.getDmaBdStepBits r.tile * r.gran :=
    (Nat.le_div_iff_mul_le hpos).1 hle
  have hpow : 2 ^ r.tm.getDmaBdStepBits r.tile ≤ 2 ^ 20 :=
    Nat.pow_le_pow_right (by decide) hl.step.2
  have hlt : x.toNat * r.elemWidth < 2 ^ 64 :=
    (hbytes.trans (Nat.mul_le_mul_right _ hpow)).trans_lt (by rw [hl.gran]; decide)
  have hone : 1 ≤ x.toNat * r.elemWidth / r.gran :=
    Nat.div_pos (Nat.le_of_dvd (Nat.mul_pos hx hpos) hwhole) hgran
  have hmax : x.toNat * r.elemWidth / r.gran ≤ 2 ^ r.tm.getDmaBdStepBits r.tile :=
    (Nat.div_le_div_right hbytes).trans (Nat.mul_div_cancel _ hgran).le
  refine ⟨hlt, holds_of_lt (by rw [hf]; have := hl.step.2; omega) ?_ (by rw [hf]; omega)⟩
  rw [← toNat_scaled hl hew hlt] at hone ⊢
  exact toNat_sub_one hone

theorem toNat_hwS0 (hl : r.Limits layout) (hew : r.elemWidth < 2 ^ 64)
    (h : r.size 0 * r.elemWidth < 2 ^ 64) : (r.hwS 0).toNat = r.granules := toNat_scaled hl hew h

theorem hwT_of_gt {i : Fin 4} (hi : i = 1 ∨ i = 2) (h : 1 < r.size i) :
    r.hwT i = biasedStride SsaStridePolicy r.elemWidth r.gran (r.inT i) := by
  have hult : (cst 1).ult (r.inS i) = true := by
    rw [BitVec.ult, decide_eq_true_iff]
    exact h
  obtain rfl | rfl := hi <;> exact if_pos hult

/-! ## A d0 in range -/

theorem Limits.size_pos (hl : r.Limits layout) (ha : r.Accepted) :
    (1 ≤ r.size 1 ∧ r.size 1 ≤ r.wrapLimit) ∧ (1 ≤ r.size 2 ∧ r.size 2 ≤ r.maxLen) ∧
      1 ≤ r.size 3 ∧ r.size 3 ≤ 256 := by
  have hwrap := hl.wrapLimit_pos
  have hone : r.wrapLimit ≠ 0 := by omega
  have htwo : r.maxLen ≠ 0 := by omega
  have hthree : r.maxRepeats ≠ 0 := by rw [hl.repeats]; decide
  refine ⟨ha.size 1 hone, ha.size 2 htwo, ?_⟩
  have hrep : 1 ≤ r.size 3 ∧ r.size 3 ≤ r.maxRepeats := ha.size 3 hthree
  rwa [hl.repeats] at hrep

theorem toNat_d0d1 (hl : r.Limits layout) (ha : r.Accepted) (hew : r.elemWidth < 2 ^ 64)
    (hmul : r.size 0 * r.elemWidth < 2 ^ 64) (hd0 : r.granules ≤ r.wrapLimit) :
    r.granules * r.size 1 < 2 ^ 64 ∧ r.d0d1.toNat = r.granules * r.size 1 := by
  have hsize := hl.size_pos ha
  have hmax := hl.maxLen_lt
  have hwrap := hl.wrapLimit_pos.2
  have hinner : r.granules * r.size 1 ≤ (2 ^ 32 - 1) * (2 ^ 32 - 1) :=
    Nat.mul_le_mul (by omega) (by omega)
  have hlt : r.granules * r.size 1 < 2 ^ 64 := hinner.trans_lt (by decide)
  refine ⟨hlt, ?_⟩
  unfold d0d1
  rw [mul, BitVec.toNat_mul, toNat_hwS0 hl hew hmul]
  exact Nat.mod_eq_of_lt hlt

theorem toNat_bufLen (hl : r.Limits layout) (ha : r.Accepted) (hew : r.elemWidth < 2 ^ 64)
    (hmul : r.size 0 * r.elemWidth < 2 ^ 64) (hd0 : r.granules ≤ r.wrapLimit)
    (hext : r.granules * r.size 1 * r.size 2 < 2 ^ 64) :
    r.bufLen.toNat = r.granules * r.size 1 * r.size 2 := by
  rw [bufLen, mul, BitVec.toNat_mul, (toNat_d0d1 hl ha hew hmul hd0).2]
  exact Nat.mod_eq_of_lt hext

theorem hwT_zero (hl : r.Limits layout) (hew : r.elemWidth < 2 ^ 64)
    (h : r.stride 0 * r.elemWidth < 2 ^ 64) :
    r.hwT 0 = if r.gran < r.elemWidth ∨ r.stride 0 * r.elemWidth < r.gran then cst 0
      else biasedStride SsaStridePolicy r.elemWidth r.gran (r.inT 0) := by
  have hult : (r.inT 0 * cst r.elemWidth).ult (cst r.gran) = true ↔
      r.stride 0 * r.elemWidth < r.gran := by
    rw [BitVec.ult, decide_eq_true_iff, BitVec.toNat_mul, toNat_cst hew,
      toNat_cst (by rw [hl.gran]; decide)]
    exact iff_of_eq (congrArg (· < r.gran) (Nat.mod_eq_of_lt h))
  have hT : r.hwT 0 = if r.elemWidth > r.gran then cst 0 else
      if (r.inT 0 * cst r.elemWidth).ult (cst r.gran) = true then cst 0 else
        biasedStride SsaStridePolicy r.elemWidth r.gran (r.inT 0) := rfl
  rw [hT, ite_or]
  simp only [hult]

theorem holds_d0Stride (hl : r.Limits layout) (hpos : 0 < r.elemWidth)
    (hew : r.elemWidth < 2 ^ 64) (ha : r.Accepted) (hlin : r.isLinear = false)
    (hgt : 1 < r.size 0) : r.stride 0 * r.elemWidth < 2 ^ 64 ∧
      Holds layout.d0Stride ((r.hwT 0).truncate 32)
        (if r.elemWidth > r.gran then 0 else r.step 0) := by
  have hzero : Holds layout.d0Stride ((cst 0).truncate 32) 0 :=
    holds_of_lt (by rw [hl.d0Stride]; have := hl.step.2; omega) rfl (Nat.two_pow_pos _)
  obtain hlt | heq | hwide := lt_trichotomy r.elemWidth r.gran
  · have hbytes : r.stride 0 * r.elemWidth = r.elemWidth := by
      rw [ha.unitStride hlt.ne hgt, one_mul]
    rw [hwT_zero hl hew (by omega), if_pos (by omega), if_neg (by omega), step, hbytes,
      Nat.div_eq_of_lt hlt]
    exact ⟨hew, hzero⟩
  · have hmax : r.maxStride ≠ 0 := by
      refine (Nat.div_pos ?_ hpos).ne'
      rw [heq]
      exact Nat.le_mul_of_pos_left _ (Nat.two_pow_pos _)
    have ht := ha.stride hlin 0 (by decide) (fun _ => heq.le) hgt hmax
    have hstep := holds_step hl hpos hew hl.d0Stride ht.1 ht.2 (by
      rw [heq]
      exact dvd_mul_left _ _)
    have hle : r.elemWidth ≤ r.stride 0 * r.elemWidth := Nat.le_mul_of_pos_left _ ht.1
    rw [hwT_zero hl hew hstep.1, if_neg (by omega), if_neg (by omega)]
    exact hstep
  · have hbytes : r.stride 0 * r.elemWidth = r.elemWidth := by
      rw [ha.unitStride hwide.ne' hgt, one_mul]
    rw [hwT_zero hl hew (by omega), if_pos (by omega), if_pos hwide, hbytes]
    exact ⟨hew, hzero⟩

theorem holds_innerStride (hl : r.Limits layout) (hpos : 0 < r.elemWidth)
    (hew : r.elemWidth < 2 ^ 64) (ha : r.Accepted) (hlin : r.isLinear = false) {i : Fin 4}
    (hi : i = 1 ∨ i = 2) (hgt : 1 < r.size i)
    (hstep : r.elemWidth ≤ 2 ^ r.tm.getDmaBdStepBits r.tile * r.gran) {f : DmaBdField}
    (hf : f.width = r.tm.getDmaBdStepBits r.tile) :
    r.stride i * r.elemWidth < 2 ^ 64 ∧ Holds f ((r.hwT i).truncate 32) (r.step i) := by
  have hne : i ≠ 0 := by omega
  have ht := ha.stride hlin i (by omega) (fun h0 => absurd h0 hne) hgt (Nat.div_pos hstep hpos).ne'
  rw [hwT_of_gt hi hgt]
  exact holds_step hl hpos hew hf ht.1 ht.2 (ha.wholeStride i hne)

theorem ult_cst_iff {x : I64} {c : ℕ} (hc : c < 2 ^ 64) : (cst c).ult x = true ↔ c < x.toNat := by
  rw [BitVec.ult, decide_eq_true_iff, toNat_cst hc]

theorem holds_iterationStride (hl : r.Limits layout) (hpos : 0 < r.elemWidth)
    (hew : r.elemWidth < 2 ^ 64) (ha : r.Accepted) (hgt : 1 < r.size 3) :
    r.stride 3 * r.elemWidth < 2 ^ 64 ∧ (0 < r.stride 3 →
      Holds layout.iterationStride ((r.hwT 3).truncate 32) (r.step 3)) := by
  obtain hzero | hsome := Nat.eq_zero_or_pos (r.stride 3)
  · rw [hzero, zero_mul]
    exact ⟨by decide, fun h0 => absurd h0 (lt_irrefl 0)⟩
  · have hstep := holds_step hl hpos hew hl.iterationStride hsome (ha.iterationStride hgt)
      (ha.wholeStride 3 (by decide))
    have hT : r.hwT 3 = if (cst 1).ult (r.inS 3) = true then
        (if (cst 0).ult (r.inT 3) = true then
          biasedStride SsaStridePolicy r.elemWidth r.gran (r.inT 3) else cst 0) else cst 0 := rfl
    rw [hT, if_pos ((ult_cst_iff (by decide)).2 hgt), if_pos ((ult_cst_iff (by decide)).2 hsome)]
    exact ⟨hstep.1, fun _ => hstep.2⟩

theorem holds_iterationSize (hl : r.Limits layout) (ha : r.Accepted) :
    Holds layout.iterationSize
      ((SsaStridePolicy.selectGT0 (r.inT 3) (r.hwS 3) (SsaStridePolicy.cst 0)).truncate 32)
      (if r.stride 3 = 0 then 0 else r.size 3 - 1) := by
  have hw : layout.iterationSize.width ≤ 32 := by rw [hl.iterationSize]; decide
  have hsel : SsaStridePolicy.selectGT0 (r.inT 3) (r.hwS 3) (SsaStridePolicy.cst 0) =
      if (cst 0).ult (r.inT 3) = true then r.hwS 3 else cst 0 := rfl
  obtain hzero | hsome := Nat.eq_zero_or_pos (r.stride 3)
  · have hnot : ¬ (cst 0).ult (r.inT 3) = true := by
      rw [ult_cst_iff (by decide)]
      exact hzero.not_gt
    rw [hsel, if_neg hnot, if_pos hzero]
    exact holds_of_lt hw rfl (Nat.two_pow_pos _)
  · have hone := (hl.size_pos ha).2.2.1
    have hle : r.size 3 - 1 ≤ 63 := by
      have hit := ha.iteration.resolve_left hsome.ne'
      rwa [hl.iterations, GuardBuilder.sub, toNat_sub_one hone] at hit
    have hS : (r.hwS 3).toNat = r.size 3 - 1 := by
      have hdef : r.hwS 3 = if (cst 1).ult (r.inS 3) = true then r.inS 3 - cst 1 else cst 0 := rfl
      rw [hdef]
      split_ifs with hgt
      · exact toNat_sub_one hone
      · rw [ult_cst_iff (by decide)] at hgt
        change ¬ 1 < r.size 3 at hgt
        rw [toNat_cst (by decide)]
        omega
    rw [hsel, if_pos ((ult_cst_iff (by decide)).2 hsome), if_neg hsome.ne']
    exact holds_of_lt hw hS (by rw [hl.iterationSize]; omega)

/-- **The fields and the products**, where the extents are in range. -/
theorem exact_of_bounds (hl : r.Limits layout) (hpos : 0 < r.elemWidth)
    (hew : r.elemWidth < 2 ^ 64) (ha : r.Accepted) {e : EncodedBd} (h : r.encodeBdCommon = .ok e)
    (hmul : r.size 0 * r.elemWidth < 2 ^ 64) (hd0 : r.granules ≤ r.wrapLimit)
    (hext : r.granules * r.size 1 * r.size 2 ≤ r.maxLen)
    (hstep : r.isLinear = false → 1 < r.size 1 ∨ 1 < r.size 2 →
      r.elemWidth ≤ 2 ^ r.tm.getDmaBdStepBits r.tile * r.gran)
    (hlen : ∀ len, r.lenElems = some len →
      r.elemWidth ≤ r.maxLen * r.gran ∨ len.value.toNat = 0) :
    r.Exact layout e ∧ r.NoWrap := by
  have hsize := hl.size_pos ha
  have hmax := hl.maxLen_lt
  have hext64 : r.granules * r.size 1 * r.size 2 < 2 ^ 64 := by omega
  have hwrapBits : r.isLinear = false → r.wrapLimit < 2 ^ r.tm.getDmaBdWrapBits r.tile := by
    intro hlin
    have hpow := Nat.one_le_two_pow (n := r.tm.getDmaBdWrapBits r.tile)
    simp only [wrapLimit, hlin, Bool.false_eq_true, if_false, wrapMax]
    omega
  have hwrap32 : r.tm.getDmaBdWrapBits r.tile ≤ 32 := by have := hl.wrap.2; omega
  obtain ⟨hS, hT, hbuf, hit⟩ := fields_of_ok h
  refine ⟨⟨?_, ?_, ?_, ?_, ?_, ?_, ?_, ?_⟩, ⟨hmul, (toNat_d0d1 hl ha hew hmul hd0).1, hext64, ?_,
    fun hgt => (holds_iterationStride hl hpos hew ha hgt).1, ?_⟩⟩
  · rw [hbuf]
    have hfit := hl.bufferLength
    exact holds_of_lt hl.lengthWidth (toNat_bufLen hl ha hew hmul hd0 hext64) (by omega)
  · intro hlin
    have hlt := hwrapBits hlin
    rw [hS]
    exact holds_of_lt (by rw [hl.d0Size]; exact hwrap32) (toNat_hwS0 hl hew hmul)
      (by rw [hl.d0Size]; omega)
  · intro hlin
    have hlt := hwrapBits hlin
    rw [hS]
    exact holds_of_lt (by rw [hl.d1Size]; exact hwrap32) rfl (by rw [hl.d1Size]; omega)
  · intro hlin hgt
    rw [hT]
    exact (holds_d0Stride hl hpos hew ha hlin hgt).2
  · intro hlin hgt
    rw [hT]
    exact (holds_innerStride hl hpos hew ha hlin (Or.inl rfl) hgt (hstep hlin (Or.inl hgt))
      hl.d1Stride).2
  · intro hlin hgt
    rw [hT]
    exact (holds_innerStride hl hpos hew ha hlin (Or.inr rfl) hgt (hstep hlin (Or.inr hgt))
      hl.d2Stride).2
  · rw [hit]
    exact holds_iterationSize hl ha
  · intro hgt hsome
    rw [hT]
    exact (holds_iterationStride hl hpos hew ha hgt).2 hsome
  · intro hlin i hi hgt
    match i, hi with
    | 0, _ => exact (holds_d0Stride hl hpos hew ha hlin hgt).1
    | 1, _ =>
      exact (holds_innerStride hl hpos hew ha hlin (Or.inl rfl) hgt (hstep hlin (Or.inl hgt))
        hl.d1Stride).1
    | 2, _ =>
      exact (holds_innerStride hl hpos hew ha hlin (Or.inr rfl) hgt (hstep hlin (Or.inr hgt))
        hl.d2Stride).1
  · intro len hsome hwide
    obtain hfit | hzero := hlen len hsome
    · have hle := (ha.explicit len hsome).1 (Nat.div_pos hfit hpos).ne'
      have hbytes : len.value.toNat * (r.elemWidth / r.gran) ≤ r.maxLen * r.gran :=
        (Nat.mul_le_mul hle (Nat.div_le_self _ _)).trans (Nat.div_mul_le_self _ _)
      rw [hl.gran] at hbytes ⊢
      omega
    · rw [hzero, zero_mul]
      decide

/-! ## An element that a wrap holds -/

theorem size_le_sizeMax (ha : r.Accepted) {i : Fin 4} (hi : r.sizeHi i ≠ 0) :
    r.size i ≤ r.sizeMax i := by
  unfold sizeMax
  split_ifs
  · exact le_rfl
  · exact (ha.size i hi).2

theorem extent_le_of_lenMax (hl : r.Limits layout) (ha : r.Accepted) (hpos : 0 < r.elemWidth)
    (hfit : r.elemWidth ≤ r.wrapLimit * r.gran) (hmul : r.size 0 * r.elemWidth < 2 ^ 64)
    (h : r.lenMax ≤ r.maxLen) : r.granules * r.size 1 * r.size 2 ≤ r.maxLen := by
  have hwrap := hl.wrapLimit_pos
  have hmax := hl.maxLen_lt
  have h0 : r.sizeHi 0 ≠ 0 := (Nat.div_pos hfit hpos).ne'
  have h1 : r.size 1 ≤ r.sizeMax 1 := size_le_sizeMax ha (i := 1) (by
    change r.wrapLimit ≠ 0
    omega)
  have h2 : r.size 2 ≤ r.sizeMax 2 := size_le_sizeMax ha (i := 2) (by
    change r.maxLen ≠ 0
    omega)
  have hmax0 : r.sizeMax 0 * r.elemWidth < 2 ^ 64 := by
    unfold sizeMax
    split_ifs
    · exact hmul
    · have hbytes : r.sizeHi 0 * r.elemWidth ≤ r.wrapLimit * r.gran := Nat.div_mul_le_self _ _
      rw [hl.gran] at hbytes
      omega
  have hgranules : r.granules ≤ r.sizeMax 0 * r.elemWidth % 2 ^ 64 / r.gran := by
    rw [Nat.mod_eq_of_lt hmax0]
    exact Nat.div_le_div_right (Nat.mul_le_mul_right _ (size_le_sizeMax ha h0))
  have htwo := (hl.size_pos ha).2.1.1
  unfold lenMax saturatingMultiply at h
  generalize r.sizeMax 0 * r.elemWidth % 2 ^ 64 / r.gran = a at h hgranules
  have hprod : min (a * r.sizeMax 1) (2 ^ 64 - 1) * r.sizeMax 2 ≤ r.maxLen :=
    (min_le_iff.1 h).resolve_right (by omega)
  have hinner : min (a * r.sizeMax 1) (2 ^ 64 - 1) ≤ r.maxLen :=
    (Nat.le_mul_of_pos_right _ (by omega)).trans hprod
  have hle : a * r.sizeMax 1 ≤ 2 ^ 64 - 1 := by omega
  rw [min_eq_left hle] at hprod
  exact (Nat.mul_le_mul (Nat.mul_le_mul hgranules h1) h2).trans hprod

theorem exact_of_narrow (hl : r.Limits layout) (hpos : 0 < r.elemWidth)
    (hew : r.elemWidth < 2 ^ 64) (ha : r.Accepted) {e : EncodedBd} (h : r.encodeBdCommon = .ok e)
    (hfit : r.elemWidth ≤ r.wrapLimit * r.gran) : r.Exact layout e ∧ r.NoWrap := by
  have hgran : 0 < r.gran := by rw [hl.gran]; decide
  have hwrap := hl.wrapLimit_pos
  have hmax := hl.maxLen_lt
  have hbytes : r.size 0 * r.elemWidth ≤ r.wrapLimit * r.gran :=
    (Nat.le_div_iff_mul_le hpos).1 (ha.size 0 (Nat.div_pos hfit hpos).ne').2
  have hmul : r.size 0 * r.elemWidth < 2 ^ 64 := by
    rw [hl.gran] at hbytes
    omega
  have hd0 : r.granules ≤ r.wrapLimit :=
    (Nat.div_le_div_right hbytes).trans (Nat.mul_div_cancel _ hgran).le
  have hext : r.granules * r.size 1 * r.size 2 ≤ r.maxLen := by
    obtain hle | hlt := le_or_gt r.lenMax r.maxLen
    · exact extent_le_of_lenMax hl ha hpos hfit hmul hle
    · obtain ⟨hinner, hlen⟩ := ha.length hlt
      rw [(toNat_d0d1 hl ha hew hmul hd0).2] at hinner
      have htwo := (hl.size_pos ha).2.1.2
      have hsquare : r.granules * r.size 1 * r.size 2 ≤ (2 ^ 32 - 1) * (2 ^ 32 - 1) :=
        Nat.mul_le_mul (by omega) (by omega)
      rwa [toNat_bufLen hl ha hew hmul hd0 (by omega)] at hlen
  refine exact_of_bounds hl hpos hew ha h hmul hd0 hext (fun hlin _ => ?_) fun len _ => Or.inl ?_
  · have hbits : 2 ^ r.tm.getDmaBdWrapBits r.tile ≤ 2 ^ r.tm.getDmaBdStepBits r.tile :=
      Nat.pow_le_pow_right (by decide) (by have := hl.wrap.2; have := hl.step.1; omega)
    have hlim : r.wrapLimit = r.wrapMax := by
      simp only [wrapLimit, hlin, Bool.false_eq_true, if_false]
    refine hfit.trans (Nat.mul_le_mul_right _ ?_)
    rw [hlim, wrapMax]
    exact (Nat.sub_le _ _).trans hbits
  · exact hfit.trans (Nat.mul_le_mul_right _ hwrap.2)

/-! ## An element that no wrap holds -/

theorem granules_of_wide (hl : r.Limits layout)
    (hdvd : r.elemWidth ∣ r.gran ∨ r.gran ∣ r.elemWidth)
    (hwide : r.wrapLimit * r.gran < r.elemWidth) : r.gran < r.elemWidth ∧
      r.elemWidth / r.gran * r.gran = r.elemWidth ∧ r.wrapLimit < r.elemWidth / r.gran := by
  have hgran : 0 < r.gran := by rw [hl.gran]; decide
  have hlt : r.gran < r.elemWidth :=
    (Nat.le_mul_of_pos_left _ hl.wrapLimit_pos.1).trans_lt hwide
  have hdiv : r.gran ∣ r.elemWidth := hdvd.resolve_left fun h =>
    absurd (Nat.le_of_dvd hgran h) (not_le.2 hlt)
  refine ⟨hlt, Nat.div_mul_cancel hdiv, ?_⟩
  rw [Nat.lt_div_iff_mul_lt' hdiv, mul_comm]
  exact hwide

theorem size_zero_of_exact (hl : r.Limits layout) (ha : r.Accepted)
    (hdvd : r.elemWidth ∣ r.gran ∨ r.gran ∣ r.elemWidth)
    (hwide : r.wrapLimit * r.gran < r.elemWidth) {e : EncodedBd} (hx : r.Exact layout e) :
    r.size 0 = 0 := by
  by_contra hne
  have hgran : 0 < r.gran := by rw [hl.gran]; decide
  have hsize := hl.size_pos ha
  obtain ⟨-, hcancel, hgt⟩ := granules_of_wide hl hdvd hwide
  have hle : r.elemWidth / r.gran ≤ r.granules :=
    Nat.div_le_div_right (Nat.le_mul_of_pos_left _ (Nat.pos_of_ne_zero hne))
  cases hlin : r.isLinear with
  | false =>
    have hlt := (hx.d0Size hlin).lt
    rw [hl.d0Size] at hlt
    simp only [wrapLimit, hlin, Bool.false_eq_true, if_false, wrapMax] at hgt
    omega
  | true =>
    have hlt := hx.bufferLength.lt
    rw [← hl.bufferLength] at hlt
    simp only [wrapLimit, hlin, if_true] at hgt
    have hext : r.granules ≤ r.granules * r.size 1 * r.size 2 :=
      (Nat.le_mul_of_pos_right _ hsize.1.1).trans (Nat.le_mul_of_pos_right _ hsize.2.1.1)
    omega

theorem step_fits_of_exact (hl : r.Limits layout) (hdvd : r.gran ∣ r.elemWidth) {i : Fin 4}
    (hi : i = 1 ∨ i = 2) (hgt : 1 < r.size i) {f : DmaBdField}
    (hf : f.width = r.tm.getDmaBdStepBits r.tile)
    (hx : Holds f ((r.hwT i).truncate 32) (r.step i)) :
    r.elemWidth ≤ 2 ^ r.tm.getDmaBdStepBits r.tile * r.gran := by
  have hgran : 0 < r.gran := by rw [hl.gran]; decide
  by_contra hlt
  obtain hzero | hsome := Nat.eq_zero_or_pos (r.stride i)
  · have hT : r.hwT i = BitVec.allOnes 64 := by
      have hin : r.inT i = 0 := BitVec.eq_of_toNat_eq hzero
      rw [hwT_of_gt hi hgt, hin]
      change 0 * cst r.elemWidth / cst r.gran - cst 1 = _
      rw [show (0 : I64) * cst r.elemWidth = 0 from BitVec.zero_mul,
        show (0 : I64) / cst r.gran = 0 from BitVec.zero_udiv]
      rfl
    have hstep := hl.step
    have hpow : 2 ^ 10 < 2 ^ r.tm.getDmaBdStepBits r.tile :=
      Nat.pow_lt_pow_right (by decide) hstep.1
    have hdvdPow : 2 ^ r.tm.getDmaBdStepBits r.tile ∣ 2 ^ 64 := Nat.pow_dvd_pow 2 (by omega)
    rw [holds_truncate (by rw [hf]; omega), hT, hf, step, hzero, zero_mul, Nat.zero_div] at hx
    have hdvdOnes := Nat.dvd_of_mod_eq_zero hx
    have hone := (Nat.dvd_sub hdvdPow hdvdOnes)
    have hle := Nat.le_of_dvd (by decide) hone
    have hval : 2 ^ 64 - (BitVec.allOnes 64).toNat = 1 := by decide
    omega
  · have hlt' := hx.lt
    rw [hf] at hlt'
    have hle : r.elemWidth / r.gran ≤ r.stride i * r.elemWidth / r.gran :=
      Nat.div_le_div_right (Nat.le_mul_of_pos_left _ hsome)
    have hmore : 2 ^ r.tm.getDmaBdStepBits r.tile < r.elemWidth / r.gran := by
      rw [Nat.lt_div_iff_mul_lt' hdvd, mul_comm]
      exact not_le.1 hlt
    unfold step at hlt'
    omega

theorem length_fits_of_noWrap (hl : r.Limits layout) (hpos : 0 < r.elemWidth)
    (hdvd : r.gran ∣ r.elemWidth) (ha : r.Accepted) (hn : r.NoWrap) (hew : r.elemWidth < 2 ^ 64)
    (hzero : r.size 0 = 0) {len : Operand} (hlen : r.lenElems = some len) :
    r.elemWidth ≤ r.maxLen * r.gran ∨ len.value.toNat = 0 := by
  have hgran : 0 < r.gran := by rw [hl.gran]; decide
  have hle : r.gran ≤ r.elemWidth := Nat.le_of_dvd hpos hdvd
  have hmul : r.size 0 * r.elemWidth < 2 ^ 64 := by rw [hzero, zero_mul]; decide
  have hgranules : r.granules = 0 := by rw [granules, hzero, zero_mul, Nat.zero_div]
  have hbuf : r.bufLen.toNat = 0 := by
    rw [toNat_bufLen hl ha hew hmul (by omega) (by rw [hgranules, zero_mul, zero_mul]; decide),
      hgranules, zero_mul, zero_mul]
  refine Or.inr ?_
  have heq := congrArg BitVec.toNat (ha.explicit len hlen).2
  have hwrap := hn.length len hlen hle
  have hcst : r.elemWidth / r.gran < 2 ^ 64 := (Nat.div_le_self _ _).trans_lt hew
  rw [hbuf, lenGranules, if_pos hle, mul, BitVec.toNat_mul, toNat_cst hcst,
    Nat.mod_eq_of_lt hwrap] at heq
  exact (Nat.mul_eq_zero.1 heq).resolve_right (Nat.div_pos hle hgran).ne'

theorem exact_of_none (hl : r.Limits layout) (hpos : 0 < r.elemWidth)
    (hew : r.elemWidth < 2 ^ 64) (ha : r.Accepted) {e : EncodedBd} (h : r.encodeBdCommon = .ok e)
    (hzero : r.size 0 = 0)
    (hstep : r.isLinear = false → 1 < r.size 1 ∨ 1 < r.size 2 →
      r.elemWidth ≤ 2 ^ r.tm.getDmaBdStepBits r.tile * r.gran)
    (hlen : ∀ len, r.lenElems = some len →
      r.elemWidth ≤ r.maxLen * r.gran ∨ len.value.toNat = 0) : r.Exact layout e ∧ r.NoWrap := by
  have hgranules : r.granules = 0 := by rw [granules, hzero, zero_mul, Nat.zero_div]
  refine exact_of_bounds hl hpos hew ha h (by rw [hzero, zero_mul]; decide) (by omega) ?_ hstep hlen
  rw [hgranules, zero_mul, zero_mul]
  exact Nat.zero_le _

/-! ## The encoder -/

/-- **Accepted descriptors are exact, and their products do not wrap, exactly where one element fits
the limit of d0** (or there is no element). -/
theorem encodeBdCommon_exact_iff {r : BdRequest} {layout : DmaBdLayout} {e : EncodedBd}
    (hlayout : r.FamilyLayout layout) (hpos : 0 < r.elemWidth) (hew : r.elemWidth < 2 ^ 64)
    (hdvd : r.elemWidth ∣ r.gran ∨ r.gran ∣ r.elemWidth) (h : r.encodeBdCommon = .ok e) :
    (r.Exact layout e ∧ r.NoWrap) ↔ r.Fitting := by
  have hl := hlayout.limits
  have ha := accepted_of_ok hl h
  constructor
  · rintro ⟨hx, hn⟩
    obtain hfit | hwide := le_or_gt r.elemWidth (r.wrapLimit * r.gran)
    · exact Or.inl hfit
    · have hzero := size_zero_of_exact hl ha hdvd hwide hx
      have hdiv : r.gran ∣ r.elemWidth := hdvd.resolve_left fun hle => absurd
        (Nat.le_of_dvd (by rw [hl.gran]; decide) hle) (not_le.2 (granules_of_wide hl hdvd hwide).1)
      obtain ⟨-, hT, -, -⟩ := fields_of_ok h
      refine Or.inr ⟨hzero, fun hlin hgt => ?_, fun len hlen =>
        length_fits_of_noWrap hl hpos hdiv ha hn hew hzero hlen⟩
      obtain hone | htwo := hgt
      · exact step_fits_of_exact hl hdiv (Or.inl rfl) hone hl.d1Stride
          (by rw [← hT]; exact hx.d1Stride hlin hone)
      · exact step_fits_of_exact hl hdiv (Or.inr rfl) htwo hl.d2Stride
          (by rw [← hT]; exact hx.d2Stride hlin htwo)
  · rintro (hfit | ⟨hzero, hstep, hlen⟩)
    · exact exact_of_narrow hl hpos hew ha h hfit
    · exact exact_of_none hl hpos hew ha h hzero hstep hlen

end BdRequest

/-! ## Runs -/

def coreTile (_ row : ℤ) : AIETileType := if row < 2 then .MemTile else .CoreTile

def runtime (n : ℕ) : Operand := ⟨cst n, false⟩

/-- One vector of 256 words, of a core tile whose d0 counts to 255. -/
def wideVector : BdRequest where
  tm := AIE2TargetModel coreTile []
  tileCol := 0
  tileRow := 2
  sizes := ![runtime 1, runtime 1, runtime 1, runtime 1]
  strides := ![runtime 1, runtime 1, runtime 1, runtime 1]
  elemWidth := 8192

/-- Its d0 is encoded as zero. -/
theorem wideVector_not_exact : wideVector.FamilyLayout makeAIE2CoreTileBdLayout ∧
    wideVector.gran ∣ wideVector.elemWidth ∧ ∃ e, wideVector.encodeBdCommon = .ok e ∧
      ¬ wideVector.Exact makeAIE2CoreTileBdLayout e := by
  have hguards : ∀ g ∈ wideVector.guards, g.cond = true := by decide +kernel
  obtain ⟨e, he⟩ := BdRequest.exists_ok_of_guards hguards
  refine ⟨⟨coreTile, [], rfl, rfl⟩, by decide, e, he, fun hx => ?_⟩
  have hd0 := hx.d0Size (by decide +kernel)
  rw [(BdRequest.fields_of_ok he).1 0] at hd0
  exact absurd hd0 (by unfold Holds; decide +kernel)

/-- Two planes of two rows of four words, three times, of a memory tile. -/
def threePlanes : BdRequest where
  tm := AIE2TargetModel coreTile []
  tileCol := 0
  tileRow := 1
  sizes := ![runtime 4, runtime 2, runtime 2, runtime 3]
  strides := ![runtime 1, runtime 8, runtime 32, runtime 64]
  elemWidth := 32

/-- They fit, and are exact. -/
theorem threePlanes_exact_iff : ∃ e, threePlanes.encodeBdCommon = .ok e ∧
    ((threePlanes.Exact makeAIE2MemTileBdLayout e ∧ threePlanes.NoWrap) ↔ threePlanes.Fitting) := by
  have hguards : ∀ g ∈ threePlanes.guards, g.cond = true := by decide +kernel
  obtain ⟨e, he⟩ := BdRequest.exists_ok_of_guards hguards
  exact ⟨e, he, BdRequest.encodeBdCommon_exact_iff ⟨coreTile, [], rfl, rfl⟩ (by decide) (by decide)
    (by decide) he⟩

end MlirAie.Bd
