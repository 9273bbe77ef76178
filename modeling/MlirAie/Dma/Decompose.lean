import MlirAie.Dma.Pattern

/-!
# Decomposing an access pattern

`decomposeNdDmaPattern` turns a pattern no descriptor holds into patterns that one does, in the
order their streams are emitted.

* `mergeContiguousDims`: dimensions that continue the one inside them are merged;
* `decomposeRecursive`: factoring, then slicing the outermost active dimension;
* `sliceIterations`, `decompose4d`, **`decomposeNdDmaPattern`**.
-/

namespace MlirAie.Dma

open MlirAie.Bd

namespace DmaTarget

variable (T : DmaTarget)

def maxLegalInputSizeForDim (dim : ℕ) (stride : ℤ) : ℤ :=
  let wrapBits := T.tm.getDmaBdWrapBits T.tile
  if wrapBits = 0 then 0
  else if dim = 0 then
    let maxHw : ℤ := 2 ^ wrapBits - 1
    let maxInput := (maxHw * T.gran).tdiv T.elemWidth
    let divisor : ℤ := bdGranuleDivisor T.elemWidth T.gran
    if divisor > 1 then maxInput.tdiv divisor * divisor else maxInput
  else if dim = 3 then
    if stride = 0 then T.tm.getMaxRepeatCount + 1 else T.maxIterations
  else 2 ^ wrapBits - 1

/-- Whether dimension `d`'s stride fits the step field of a descriptor. -/
def strideFitsStepField (pattern : Nd4Pattern) (d : Fin 4) : Bool :=
  let hw := getHardwareStridesWraps T.tm T.elemWidth pattern.sizes pattern.strides
  hw.2 d ≤ 2 ^ T.tm.getDmaBdStepBits T.tile - 1

/-! ## Merging -/

/-- `next` continues `cur`, and the merged size fits slot `d`. -/
def continuesDim (d : ℕ) (cur next : NdDim) : Bool :=
  !(cur.size ≤ 1 || next.size ≤ 1 || cur.stride ≤ 0 || next.stride != cur.size * cur.stride ||
    cur.size * next.size > T.maxLegalInputSizeForDim d cur.stride)

/-- The loop at slot `d` holding `cur`: it stays there after a merge and moves outward otherwise. -/
def mergeFrom (d : ℕ) (cur : NdDim) : List NdDim → List NdDim
  | [] => [cur]
  | next :: rest =>
    if T.continuesDim d cur next then
      mergeFrom d { cur with offset := cur.offset + next.offset * cur.size,
                             size := cur.size * next.size } rest
    else cur :: mergeFrom (d + 1) next rest

def mergeContiguousDims (pattern : Nd4Pattern) : Nd4Pattern :=
  .ofDims (T.mergeFrom 0 (pattern.dim 0) [pattern.dim 1, pattern.dim 2, pattern.dim 3])
    pattern.baseOffset

end DmaTarget

/-! ## Factoring -/

/-- The divisors of `n` but `1` and `n`, the largest first. -/
def divisorsDescending (n : ℤ) : List ℤ :=
  if n ≤ 1 then []
  else
    let bs := ((List.range' 2 n.toNat).takeWhile fun b => b * b ≤ n.toNat).filter fun b =>
      n.toNat % b == 0
    let out := (bs.map fun b => n.toNat / b).insertionSort (· ≤ ·)
    let small := bs.filter fun b => b != n.toNat / b
    (out.reverse ++ small.reverse).map Nat.cast

/-- Dimension `d` split into `inner` and `outer`, the dimensions past it shifted outward. -/
def splitDim (pattern : Nd4Pattern) (d : Fin 3) (inner outer : NdDim) : Nd4Pattern :=
  { pattern with
    dim := match d with
      | 0 => ![inner, outer, pattern.dim 1, pattern.dim 2]
      | 1 => ![pattern.dim 0, inner, outer, pattern.dim 2]
      | 2 => ![pattern.dim 0, pattern.dim 1, inner, outer] }

def outerSlotHasOffset (pattern : Nd4Pattern) : Bool :=
  pattern.offsets 3 != 0 && pattern.strides 3 != 0

/-- The splits of dimension `d`, the largest inner factor first. -/
def factoringsAt (elemWidth gran : ℕ) (pattern : Nd4Pattern) (d : Fin 3) : List Nd4Pattern :=
  let dim := pattern.dim d.castSucc
  if dim.size ≤ 1 then []
  else (divisorsDescending dim.size).filterMap fun b =>
    let a := dim.size.tdiv b
    if a ≤ 1 ∨ b ≤ 1 then none
    else if d = 0 ∧ !isConstMultipleOfGranule b elemWidth gran then none
    else some (splitDim pattern d { dim with size := b } { offset := 0, size := a,
                                                           stride := b * dim.stride })

/-- Every split of a dimension that d3 leaves room for. -/
def factorings (elemWidth gran : ℕ) (pattern : Nd4Pattern) : List Nd4Pattern :=
  if pattern.sizes 3 ≠ 1 ∨ outerSlotHasOffset pattern then []
  else (List.finRange 3).flatMap (factoringsAt elemWidth gran pattern)

def idleDims (p : Nd4Pattern) : ℕ := p.toDims.dims.countP fun d => decide (d.size ≤ 1)

def indexCount (p : Nd4Pattern) : ℕ := (p.toDims.dims.map fun d => max d.size.toNat 1).prod

theorem mem_divisorsDescending {n : ℤ} {b : ℤ} (h : b ∈ divisorsDescending n) : b ∣ n := by
  unfold divisorsDescending at h
  split_ifs at h with hn
  · simp at h
  · simp only [List.map_append, List.mem_append, List.mem_map, List.mem_reverse,
      List.mem_insertionSort, List.mem_filter, beq_iff_eq] at h
    have hcast : (n.toNat : ℤ) = n := Int.toNat_of_nonneg (by omega)
    rw [← hcast]
    rcases h with ⟨_, ⟨b, ⟨-, hb⟩, rfl⟩, rfl⟩ | ⟨b, ⟨⟨-, hb⟩, -⟩, rfl⟩
    · exact Int.natCast_dvd_natCast.2 (Nat.div_dvd_of_dvd (Nat.dvd_of_mod_eq_zero hb))
    · exact Int.natCast_dvd_natCast.2 (Nat.dvd_of_mod_eq_zero hb)

theorem splitDim_dims (p : Nd4Pattern) (d : Fin 3) :
    ∃ pre post, p.toDims.dims = pre ++ p.dim d.castSucc :: (post ++ [p.dim 3]) ∧
      ∀ inner outer, (splitDim p d inner outer).toDims.dims = pre ++ inner :: outer :: post := by
  match d with
  | 0 => exact ⟨[], [p.dim 1, p.dim 2], rfl, fun _ _ => rfl⟩
  | 1 => exact ⟨[p.dim 0], [p.dim 2], rfl, fun _ _ => rfl⟩
  | 2 => exact ⟨[p.dim 0, p.dim 1], [], rfl, fun _ _ => rfl⟩

/-- **What a factoring is**: two factors of one size, in place of it and the free outer slot. -/
theorem mem_factorings {elemWidth gran : ℕ} {p q : Nd4Pattern}
    (h : q ∈ factorings elemWidth gran p) :
    p.sizes 3 = 1 ∧ outerSlotHasOffset p = false ∧ ∃ d : Fin 3, ∃ a b : ℤ, 1 < a ∧ 1 < b ∧
      b * a = p.sizes d.castSucc ∧
      q = splitDim p d { p.dim d.castSucc with size := b }
        { offset := 0, size := a, stride := b * p.strides d.castSucc } := by
  unfold factorings at h
  split_ifs at h with hp
  · simp at h
  · rw [not_or, not_not, Bool.not_eq_true] at hp
    refine ⟨hp.1, hp.2, ?_⟩
    obtain ⟨d, -, hd⟩ := List.mem_flatMap.1 h
    refine ⟨d, ?_⟩
    simp only [factoringsAt] at hd
    split_ifs at hd with hn
    · simp at hd
    · obtain ⟨b, hb, hq⟩ := List.mem_filterMap.1 hd
      split_ifs at hq with hab hgran
      rw [not_or] at hab
      have hdvd := mem_divisorsDescending hb
      exact ⟨(p.dim d.castSucc).size.tdiv b, b, by omega, by omega, Int.mul_tdiv_cancel' hdvd,
        (Option.some.inj hq).symm⟩

theorem indexCount_of_mem_factorings {elemWidth gran : ℕ} {p q : Nd4Pattern}
    (h : q ∈ factorings elemWidth gran p) : indexCount q = indexCount p := by
  obtain ⟨h3, -, d, a, b, ha, hb, hab, rfl⟩ := mem_factorings h
  have hsize : max b.toNat 1 * max a.toNat 1 = max (p.dim d.castSucc).size.toNat 1 := by
    have hmul : b.toNat * a.toNat = (p.dim d.castSucc).size.toNat := by
      rw [← Int.toNat_mul (by omega) (by omega), hab]
      rfl
    have hone : 1 ≤ b.toNat * a.toNat := Nat.mul_pos (by omega) (by omega)
    rw [max_eq_left (by omega), max_eq_left (by omega), max_eq_left (by omega), hmul]
  have hlast : max (p.dim 3).size.toNat 1 = 1 := by
    rw [show (p.dim 3).size = 1 from h3]
    rfl
  obtain ⟨pre, post, hp, hq⟩ := splitDim_dims p d
  rw [indexCount, indexCount, hq, hp]
  simp only [List.map_append, List.map_cons, List.prod_append, List.prod_cons, ← hsize, hlast,
    List.map_nil, List.prod_nil]
  ring

theorem idleDims_of_mem_factorings {elemWidth gran : ℕ} {p q : Nd4Pattern}
    (h : q ∈ factorings elemWidth gran p) : idleDims q < idleDims p := by
  obtain ⟨h3, -, d, a, b, ha, hb, hab, rfl⟩ := mem_factorings h
  have hd : ¬ (p.dim d.castSucc).size ≤ 1 := by
    rw [show (p.dim d.castSucc).size = b * a from hab.symm, not_le]
    nlinarith
  have hlast : (p.dim 3).size ≤ 1 := le_of_eq h3
  obtain ⟨pre, post, hp, hq⟩ := splitDim_dims p d
  rw [idleDims, idleDims, hq, hp]
  simp only [List.countP_append, List.countP_cons, List.countP_nil, hd, hlast, not_le.2 ha,
    not_le.2 hb, decide_true, decide_false, if_true, Bool.false_eq_true, if_false]
  omega

/-- Factoring lowers the second component, slicing the first. -/
theorem factorings_lt {elemWidth gran : ℕ} {p q : Nd4Pattern}
    (h : q ∈ factorings elemWidth gran p) :
    Prod.Lex (· < ·) (· < ·) (indexCount q, idleDims q) (indexCount p, idleDims p) := by
  rw [indexCount_of_mem_factorings h]
  exact .right _ (idleDims_of_mem_factorings h)

namespace DmaTarget

variable (T : DmaTarget)

def factorToLegal (pattern : Nd4Pattern) : Option Nd4Pattern :=
  if T.patternPassesVerification pattern then some pattern
  else (factorings T.elemWidth T.gran pattern).attach.findSome? fun q => factorToLegal q.1
termination_by (indexCount pattern, idleDims pattern)
decreasing_by exact factorings_lt q.2

/-! ## Slicing -/

end DmaTarget

def outermostDim (pattern : Nd4Pattern) : Option (Fin 4) :=
  ([3, 2, 1, 0] : List (Fin 4)).find? fun i => decide (1 < pattern.sizes i)

/-- The pieces of at most `chunk` indices. -/
def numChunks (n chunk : ℤ) : ℤ := (n + chunk - 1).tdiv chunk

def Nd4Pattern.setDim (p : Nd4Pattern) (d : Fin 4) (x : NdDim) : Nd4Pattern :=
  { p with dim := Function.update p.dim d x }

/-- The indices of dimension `d` from `i * chunk` on. -/
def Nd4Pattern.slice (p : Nd4Pattern) (d : Fin 4) (chunk : ℤ) (i : ℕ) : Nd4Pattern :=
  p.setDim d ⟨p.offsets d + i * chunk, min chunk (p.sizes d - i * chunk), p.strides d⟩

theorem setDim_dims (p : Nd4Pattern) (d : Fin 4) :
    ∃ pre post, p.toDims.dims = pre ++ p.dim d :: post ∧ post = p.toDims.dims.drop (d + 1) ∧
      ∀ x, (p.setDim d x).toDims.dims = pre ++ x :: post :=
  ⟨p.toDims.dims.take d, _, by match d with | 0 | 1 | 2 | 3 => rfl, rfl, by
    match d with | 0 | 1 | 2 | 3 => exact fun _ => rfl⟩

theorem indexCount_setDim_lt (p : Nd4Pattern) (d : Fin 4) {x : NdDim} (hd : 1 < p.sizes d)
    (hx : x.size < p.sizes d) : indexCount (p.setDim d x) < indexCount p := by
  have hlt : max x.size.toNat 1 < max (p.dim d).size.toNat 1 := by
    change x.size < (p.dim d).size at hx
    change 1 < (p.dim d).size at hd
    omega
  have hpos (ds : List NdDim) : 0 < (ds.map fun d => max d.size.toNat 1).prod := by
    induction ds with
    | nil => simp
    | cons d ds ih =>
      rw [List.map_cons, List.prod_cons]
      exact Nat.mul_pos (by omega) ih
  obtain ⟨pre, post, hp, -, hq⟩ := setDim_dims p d
  rw [indexCount, indexCount, hq, hp]
  simp only [List.map_append, List.map_cons, List.prod_append, List.prod_cons]
  exact Nat.mul_lt_mul_of_pos_left (Nat.mul_lt_mul_of_pos_right hlt (hpos _)) (hpos _)

namespace DmaTarget

variable (T : DmaTarget)

/-- An active dimension up to `d` whose stride no descriptor encodes. -/
def hasOversizedStride (pattern : Nd4Pattern) (d : Fin 4) : Bool :=
  (List.finRange 4).any fun i => decide (i ≤ d) && decide (1 < pattern.sizes i) &&
    decide (0 < pattern.strides i) && !T.strideFitsStepField pattern i

/-- The indices of a slice: as many as the slot holds, or a single one. -/
def chunkSize (pattern : Nd4Pattern) (d : Fin 4) : ℤ :=
  let n := pattern.sizes d
  let chunk := T.maxLegalInputSizeForDim d (pattern.strides d)
  let chunk := if pattern.sizes 3 = 1 ∧ outerSlotHasOffset pattern ∧ n ≤ chunk then 1 else chunk
  let chunk := if T.hasOversizedStride pattern d then 1 else chunk
  if n ≤ chunk then 1 else chunk

/-- The slice of the indices from `i * chunk` on. A single index takes an oversized stride into its
offset. -/
def sliceAt (pattern : Nd4Pattern) (d : Fin 4) (chunk : ℤ) (i : ℕ) : Option Nd4Pattern :=
  let size := min chunk (pattern.sizes d - i * chunk)
  let offset := pattern.offsets d + i * chunk
  if size = 1 ∧ !T.strideFitsStepField pattern d then
    let stride : ℤ := bdGranuleDivisor T.elemWidth T.gran
    if (pattern.strides d).tmod stride ≠ 0 then none
    else some (pattern.setDim d ⟨offset * (pattern.strides d).tdiv stride, size, stride⟩)
  else some (pattern.slice d chunk i)

theorem sliceAt_eq {p q : Nd4Pattern} {d : Fin 4} {chunk : ℤ} {i : ℕ}
    (h : T.sliceAt p d chunk i = some q) :
    ∃ x : NdDim, q = p.setDim d x ∧ x.size = min chunk (p.sizes d - i * chunk) ∧
      x.start = (p.offsets d + i * chunk) * p.strides d ∧
      (x.stride = p.strides d ∨ x.size = 1) := by
  unfold sliceAt at h
  simp only at h
  split_ifs at h with hone hdvd
  · rw [not_not] at hdvd
    refine ⟨_, (Option.some.inj h).symm, rfl, ?_, .inr hone.1⟩
    rw [NdDim.start, mul_assoc, Int.tdiv_mul_cancel (Int.dvd_of_tmod_eq_zero hdvd)]
  · exact ⟨_, (Option.some.inj h).symm, rfl, rfl, .inl rfl⟩

/-- The decomposition of one pattern, in order. Only the outermost active dimension is sliced. -/
def decomposeRecursive (pattern : Nd4Pattern) : Option (List Nd4Pattern) :=
  if T.patternPassesVerification pattern then some [pattern]
  else
    match outermostDim pattern with
    | none => none
    | some d =>
      match T.factorToLegal pattern with
      | some legal => some [legal]
      | none =>
        match (factorings T.elemWidth T.gran pattern).attach.findSome? fun q =>
            decomposeRecursive q.1 with
        | some sub => some sub
        | none =>
          let n := pattern.sizes d
          let chunk := T.chunkSize pattern d
          if _h : 0 < chunk ∧ chunk < n then
            if numChunks n chunk > kMaxNdDmaPieces then none
            else (List.range (numChunks n chunk).toNat).foldlM (fun combined i =>
              match _hs : T.sliceAt pattern d chunk i with
              | none => none
              | some slice => (decomposeRecursive slice).bind fun sub =>
                if (combined ++ sub).length > kMaxNdDmaPieces then none
                else some (combined ++ sub)) []
          else none
termination_by (indexCount pattern, idleDims pattern)
decreasing_by
  · exact factorings_lt q.2
  · obtain ⟨x, rfl, hx, -⟩ := T.sliceAt_eq _hs
    refine .left _ _ (indexCount_setDim_lt pattern d ?_ ?_)
    all_goals omega

end DmaTarget

/-! ## More than four dimensions -/

/-- Unit dimensions dropped while there are `excess` of them, innermost first, and what their
offsets add. -/
def squeezeFrom : ℕ → List NdDim → List NdDim × ℤ
  | _, [] => ([], 0)
  | 0, ds => (ds, 0)
  | excess + 1, d :: ds =>
    if d.size = 1 then
      let r := squeezeFrom excess ds
      (r.1, d.offset * d.stride + r.2)
    else
      let r := squeezeFrom (excess + 1) ds
      (d :: r.1, r.2)

def squeezeUnitDims (pattern : NdPattern) : NdPattern :=
  match pattern.dims with
  | [] => pattern
  | d0 :: ds =>
    let r := squeezeFrom (pattern.dims.length - kNdDmaDims) ds
    ⟨d0 :: r.1, pattern.baseOffset + r.2⟩

def pushIterationDim (dims : List NdDim) (d : NdDim) : List NdDim :=
  if d.size = 1 then dims
  else match dims.getLast? with
    | none => [⟨0, d.size, d.stride⟩]
    | some last =>
      if d.stride = last.size * last.stride then
        dims.dropLast ++ [{ last with size := last.size * d.size }]
      else dims ++ [⟨0, d.size, d.stride⟩]

/-- The number of peeled pieces, within the limit. -/
def peelCount (dims : List NdDim) : Option ℤ :=
  dims.foldlM (fun count d => if d.size > (kMaxNdDmaPieces : ℤ).tdiv count then none
    else some (count * d.size)) 1

def peelDim (pieces : List Nd4Pattern) (d : NdDim) : List Nd4Pattern :=
  (List.range d.size.toNat).flatMap fun (i : ℕ) =>
    pieces.map fun q => { q with baseOffset := q.baseOffset + i * d.stride }

/-- The four-dimensional patterns of a longer one: the dimensions past d2 iterate, the outermost
slowest. -/
def reduceIterationDims (pattern : NdPattern) : Option (List Nd4Pattern) :=
  let iters := pattern.dims.drop 3
  let dims := iters.foldl pushIterationDim []
  let piece : Nd4Pattern := .ofDims (pattern.dims.take 3 ++ [dims.headD {}])
    (pattern.baseOffset + (iters.map fun d => d.offset * d.stride).sum)
  (peelCount dims.tail).map fun _ => dims.tail.foldl peelDim [piece]

/-- Consecutive runs of a contiguous pattern with a long iteration dimension. -/
def sliceIterations (pattern : Nd4Pattern) (chunk : ℤ) : Option (List Nd4Pattern) :=
  if numChunks (pattern.sizes 3) chunk > kMaxNdDmaPieces then none
  else some ((List.range (numChunks (pattern.sizes 3) chunk).toNat).map fun (i : ℕ) =>
    pattern.slice 3 chunk i)

namespace DmaTarget

variable (T : DmaTarget)

/-- A pattern neither legal nor contiguous and short enough. -/
def decompose4d (pattern : Nd4Pattern) : Option (List Nd4Pattern) :=
  if isContiguousTransfer pattern.sizes pattern.strides then
    sliceIterations pattern T.maxIterations
  else T.decomposeRecursive pattern

/-- The pieces of a pattern of more than four dimensions, each kept if it is legal. -/
def decomposePieces (pieces : List Nd4Pattern) : Option (List Nd4Pattern) :=
  pieces.foldlM (fun result piece =>
    if T.contiguousAndFits piece || T.patternPassesVerification piece then some (result ++ [piece])
    else (T.decompose4d piece).bind fun sub =>
      if (result ++ sub).length > kMaxNdDmaPieces then none else some (result ++ sub)) []

/-- A pattern by dimension, at least four of them. -/
def decomposeDims (pattern : NdPattern) : Option (List Nd4Pattern) :=
  if pattern.dims.length > kNdDmaDims then
    let squeezed := squeezeUnitDims pattern
    let pieces := if squeezed.dims.length > kNdDmaDims then reduceIterationDims squeezed
      else some [.ofDims squeezed.dims squeezed.baseOffset]
    pieces.bind T.decomposePieces
  else
    let pattern := Nd4Pattern.ofDims pattern.dims pattern.baseOffset
    if T.contiguousAndFits pattern then none
    else if T.patternPassesVerification pattern then none
    else
      let merged := T.mergeContiguousDims pattern
      if T.patternPassesVerification merged then some [merged] else T.decompose4d pattern

/-- **The decomposition**; `none` where it fails. -/
def decomposeNdDmaPattern (pattern : NdDmaPattern) : Option (List NdDmaPattern) :=
  if pattern.offsets.length ≠ pattern.sizes.length ∨
      pattern.strides.length ≠ pattern.sizes.length ∨ pattern.sizes.length < kNdDmaDims then none
  else (T.decomposeDims pattern.toDims).map fun qs => qs.map fun q => q.toDims.toVectors

end DmaTarget

end MlirAie.Dma
