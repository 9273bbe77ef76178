import MlirAie.Dma.Pieces

/-!
# What a decomposition returns

Every pattern of a successful decomposition passes the checks of a descriptor, or is contiguous
with few enough iterations, and there are at most `kMaxNdDmaPieces` of them, whatever the sizes of
the input. The list is empty in one case: a peeled iteration dimension without an index.

* `decomposeRecursive_returned`, `decompose4d_returned`: one pattern of four dimensions;
* `decomposePieces_returned`: pieces that differ in their base offsets only;
* **`decomposeNdDmaPattern_lowerable_iff`**.
-/

namespace MlirAie.Dma

open MlirAie.Lib MlirAie.Bd

namespace DmaTarget

variable (T : DmaTarget)

/-- A pattern that passes the checks, or is contiguous and short enough. -/
def Lowerable (q : Nd4Pattern) : Prop :=
  T.patternPassesVerification q = true ∨ T.contiguousAndFits q = true

/-- One pattern or more, within the limit, all lowered as they are. -/
structure Returned (qs : List Nd4Pattern) : Prop where
  nonempty : qs ≠ []
  length_le : qs.length ≤ kMaxNdDmaPieces
  lowerable : ∀ q ∈ qs, T.Lowerable q

variable {T}

theorem returned_singleton {q : Nd4Pattern} (h : T.Lowerable q) : T.Returned [q] :=
  ⟨List.cons_ne_nil _ _, (by decide : 1 ≤ kMaxNdDmaPieces), List.forall_mem_singleton.2 h⟩

/-- A loop that appends what `f` gives and compares the length each time. -/
theorem returned_of_foldlM {α : Type} {f : α → Option (List Nd4Pattern)} {xs : List α}
    {acc r : List Nd4Pattern} (hget : ∀ x ∈ xs, ∀ sub, f x = some sub → T.Returned sub)
    (hacc : T.Returned acc ∨ acc = [] ∧ xs ≠ [])
    (h : xs.foldlM (fun acc x => (f x).bind fun sub =>
      if (acc ++ sub).length > kMaxNdDmaPieces then none else some (acc ++ sub)) acc = some r) :
    T.Returned r := by
  induction xs generalizing acc with
  | nil =>
    cases h
    exact hacc.resolve_right fun h => h.2 rfl
  | cons x xs ih =>
    rw [List.foldlM_cons] at h
    obtain ⟨acc', hstep, h⟩ := Option.bind_eq_some_iff.1 h
    obtain ⟨sub, hsub, hstep⟩ := Option.bind_eq_some_iff.1 hstep
    split_ifs at hstep with hmax
    cases hstep
    have hown := hget x List.mem_cons_self sub hsub
    refine ih (fun y hy => hget y (List.mem_cons_of_mem x hy)) (Or.inl ⟨?_, ?_, ?_⟩) h
    · exact fun hnil => hown.nonempty (List.append_eq_nil_iff.1 hnil).2
    · exact Nat.le_of_not_lt hmax
    · intro q hq
      rcases List.mem_append.1 hq with hq | hq
      · rcases hacc with hacc | ⟨rfl, -⟩
        · exact hacc.lowerable q hq
        · cases hq
      · exact hown.lowerable q hq

/-! ## Four dimensions -/

theorem factorToLegal_passes (p : Nd4Pattern) {q : Nd4Pattern} (h : T.factorToLegal p = some q) :
    T.patternPassesVerification q = true := by
  rw [factorToLegal] at h
  split_ifs at h with hp
  · cases h
    exact hp
  · obtain ⟨r, -, hr⟩ := List.exists_of_findSome?_eq_some h
    exact factorToLegal_passes r.1 hr
termination_by (indexCount p, idleDims p)
decreasing_by exact factorings_lt r.2

theorem outermostDim_active {p : Nd4Pattern} {d : Fin 4} (h : outermostDim p = some d) :
    1 < p.sizes d := by
  have hfind := List.find?_some h
  exact of_decide_eq_true hfind

/-- **The recursion** returns patterns that pass the checks. -/
theorem decomposeRecursive_returned (p : Nd4Pattern) {qs : List Nd4Pattern}
    (h : T.decomposeRecursive p = some qs) : T.Returned qs := by
  rw [decomposeRecursive] at h
  split at h
  · rename_i hlegal
    cases h
    exact returned_singleton (Or.inl hlegal)
  split at h
  · cases h
  rename_i d hd
  split at h
  · rename_i legal hlegal
    cases h
    exact returned_singleton (Or.inl (factorToLegal_passes p hlegal))
  split at h
  · rename_i sub hsub
    cases h
    obtain ⟨r, -, hr⟩ := List.exists_of_findSome?_eq_some hsub
    exact decomposeRecursive_returned r.1 hr
  simp only at h
  split_ifs at h with hchunk hmax
  have hactive := outermostDim_active hd
  -- the loop appends each slice's own decomposition
  have hloop : (List.range (numChunks (p.sizes d) (T.chunkSize p d)).toNat).foldlM (fun acc i =>
      ((T.sliceAt p d (T.chunkSize p d) i).bind T.decomposeRecursive).bind fun sub =>
        if (acc ++ sub).length > kMaxNdDmaPieces then none else some (acc ++ sub)) [] =
      some qs := by
    rw [← h]
    congr 1
    funext acc i
    split
    · rename_i hslice
      rw [hslice]
      rfl
    · rename_i slice hslice
      rw [hslice]
      rfl
  refine returned_of_foldlM (fun i hi sub hsub => ?_) (Or.inr ⟨rfl, ?_⟩) hloop
  · obtain ⟨slice, hslice, hsub⟩ := Option.bind_eq_some_iff.1 hsub
    obtain ⟨x, hx, hsize, -⟩ := T.sliceAt_eq hslice
    have hi : (0 : ℤ) ≤ i * T.chunkSize p d := Int.mul_nonneg (by omega) hchunk.1.le
    have hdec : indexCount slice < indexCount p := by
      rw [hx]
      exact indexCount_setDim_lt p d hactive (by omega)
    exact decomposeRecursive_returned slice hsub
  · rw [ne_eq, List.range_eq_nil]
    unfold numChunks
    have hone : 1 ≤ (p.sizes d + T.chunkSize p d - 1).tdiv (T.chunkSize p d) := by
      rw [Int.tdiv_eq_ediv_of_nonneg (by omega)]
      exact Int.le_ediv_of_mul_le hchunk.1 (by omega)
    omega
termination_by (indexCount p, idleDims p)
decreasing_by
  · exact factorings_lt r.2
  · exact .left _ _ hdec

theorem sliceIterations_returned {p : Nd4Pattern} {qs : List Nd4Pattern}
    (hp : isContiguousTransfer p.sizes p.strides = true) (hlong : T.maxIterations < p.sizes 3)
    (h : sliceIterations p T.maxIterations = some qs) : T.Returned qs := by
  have hchunk : 0 < T.maxIterations := Int.pow_pos (by decide)
  unfold sliceIterations at h
  split_ifs at h with hmax
  cases h
  refine ⟨?_, ?_, fun q hq => ?_⟩
  · rw [ne_eq, List.map_eq_nil_iff, List.range_eq_nil]
    unfold numChunks
    have hone : 1 ≤ (p.sizes 3 + T.maxIterations - 1).tdiv T.maxIterations := by
      rw [Int.tdiv_eq_ediv_of_nonneg (by omega)]
      exact Int.le_ediv_of_mul_le hchunk (by omega)
    omega
  · rw [List.length_map, List.length_range]
    omega
  · obtain ⟨i, -, rfl⟩ := List.mem_map.1 hq
    refine Or.inr ?_
    rw [contiguousAndFits, Bool.and_eq_true]
    refine ⟨hp, decide_eq_true ?_⟩
    show min T.maxIterations (p.sizes 3 - i * T.maxIterations) ≤ T.maxIterations
    exact min_le_left _ _

/-- **A pattern of four dimensions** that does not lower as it is. -/
theorem decompose4d_returned {p : Nd4Pattern} {qs : List Nd4Pattern}
    (hp : T.contiguousAndFits p = false) (h : T.decompose4d p = some qs) : T.Returned qs := by
  unfold decompose4d at h
  split_ifs at h with hcontiguous
  · refine sliceIterations_returned hcontiguous ?_ h
    rw [contiguousAndFits, hcontiguous, Bool.true_and, decide_eq_false_iff_not, not_le] at hp
    exact hp
  · exact decomposeRecursive_returned p h

/-! ## More than four dimensions -/

theorem decomposePieces_returned {pieces qs : List Nd4Pattern} {dim : Fin 4 → NdDim}
    (hsame : ∀ p ∈ pieces, p.dim = dim) (hne : pieces ≠ [])
    (hlen : pieces.length ≤ kMaxNdDmaPieces) (h : T.decomposePieces pieces = some qs) :
    T.Returned qs := by
  -- what is kept is seen from the dimensions alone
  have hkeep : ∀ p ∈ pieces, (T.contiguousAndFits p || T.patternPassesVerification p) =
      (T.contiguousAndFits ⟨dim, 0⟩ || T.patternPassesVerification ⟨dim, 0⟩) := by
    intro p hp
    obtain ⟨pdim, base⟩ := p
    cases hsame _ hp
    rfl
  unfold decomposePieces at h
  cases hown : (T.contiguousAndFits ⟨dim, 0⟩ || T.patternPassesVerification ⟨dim, 0⟩) with
  | true =>
    rw [hown] at hkeep
    have hqs : qs = pieces := by
      have hfold : ∀ (ps acc : List Nd4Pattern), (∀ p ∈ ps, (T.contiguousAndFits p ||
          T.patternPassesVerification p) = true) →
          ps.foldlM (fun result piece =>
            if T.contiguousAndFits piece || T.patternPassesVerification piece then
              some (result ++ [piece])
            else (T.decompose4d piece).bind fun sub =>
              if (result ++ sub).length > kMaxNdDmaPieces then none
              else some (result ++ sub)) acc = some (acc ++ ps) := by
        intro ps
        induction ps with
        | nil => exact fun acc _ => by rw [List.append_nil]; rfl
        | cons p ps ih =>
          intro acc hps
          obtain ⟨hp, hps⟩ := List.forall_mem_cons.1 hps
          rw [List.foldlM_cons, if_pos hp]
          exact (ih _ hps).trans (by rw [List.append_assoc]; rfl)
      rw [hfold pieces [] hkeep, List.nil_append] at h
      exact (Option.some_injective _ h).symm
    subst hqs
    refine ⟨hne, hlen, fun q hq => ?_⟩
    rcases Bool.or_eq_true_iff.1 (hkeep q hq) with hq | hq
    · exact Or.inr hq
    · exact Or.inl hq
  | false =>
    rw [hown] at hkeep
    have hnot : ∀ p ∈ pieces, T.contiguousAndFits p = false := fun p hp =>
      (Bool.or_eq_false_iff.1 (hkeep p hp)).1
    refine returned_of_foldlM (fun p hp sub hsub => decompose4d_returned (hnot p hp) hsub)
      (Or.inr ⟨rfl, hne⟩) (?_ : _ = some qs)
    rw [← h]
    have hfold : ∀ (ps acc : List Nd4Pattern), (∀ p ∈ ps, (T.contiguousAndFits p ||
        T.patternPassesVerification p) = false) →
        ps.foldlM (fun acc x => (T.decompose4d x).bind fun sub =>
          if (acc ++ sub).length > kMaxNdDmaPieces then none else some (acc ++ sub)) acc =
        ps.foldlM (fun result piece =>
            if T.contiguousAndFits piece || T.patternPassesVerification piece then
              some (result ++ [piece])
            else (T.decompose4d piece).bind fun sub =>
              if (result ++ sub).length > kMaxNdDmaPieces then none
              else some (result ++ sub)) acc := by
      intro ps
      induction ps with
      | nil => exact fun _ _ => rfl
      | cons p ps ih =>
        intro acc hps
        obtain ⟨hp, hps⟩ := List.forall_mem_cons.1 hps
        rw [List.foldlM_cons, List.foldlM_cons, if_neg (by rw [hp]; decide)]
        congr 1
        funext acc'
        exact ih acc' hps
    exact hfold pieces [] hkeep

end DmaTarget

/-- The iteration dimensions that are peeled off, one piece for each of their indices: all but the
innermost of those past d2, where those of one index are dropped and those that continue another
are merged into it. -/
def peeledDims (p : NdPattern) : List NdDim :=
  if (squeezeUnitDims p).dims.length > kNdDmaDims then
    (((squeezeUnitDims p).dims.drop 3).foldl pushIterationDim []).tail
  else []

theorem peeledDims_of_length_le {p : NdPattern} (h : p.dims.length ≤ kNdDmaDims) :
    peeledDims p = [] := by
  have hexcess : p.dims.length - kNdDmaDims = 0 := by omega
  have hlen : (squeezeUnitDims p).dims.length ≤ kNdDmaDims := by
    obtain ⟨dims, base⟩ := p
    unfold squeezeUnitDims
    cases dims with
    | nil => exact Nat.zero_le _
    | cons d0 ds =>
      simp only [hexcess]
      cases ds <;> exact h
  rw [peeledDims, if_neg (by omega)]

theorem dim_foldl_peelDim {dims : List NdDim} {pieces : List Nd4Pattern} {dim : Fin 4 → NdDim}
    (h : ∀ q ∈ pieces, q.dim = dim) :
    (∀ q ∈ dims.foldl peelDim pieces, q.dim = dim) ∧
      (dims.foldl peelDim pieces).length =
        (dims.map fun d => d.size.toNat).prod * pieces.length := by
  induction dims generalizing pieces with
  | nil => exact ⟨h, by rw [List.map_nil, List.prod_nil, Nat.one_mul]; rfl⟩
  | cons d dims ih =>
    have hpeel : ∀ q ∈ peelDim pieces d, q.dim = dim := by
      intro q hq
      obtain ⟨i, -, hq⟩ := List.mem_flatMap.1 hq
      obtain ⟨r, hr, rfl⟩ := List.mem_map.1 hq
      exact h r hr
    have hlen : (peelDim pieces d).length = d.size.toNat * pieces.length := by
      rw [peelDim, List.length_flatMap]
      simp
    obtain ⟨hdim, hcount⟩ := ih hpeel
    refine ⟨hdim, ?_⟩
    rw [List.foldl_cons, hcount, hlen, List.map_cons, List.prod_cons]
    ring

theorem prod_le_of_peelCount {dims : List NdDim} (hpos : ∀ d ∈ dims, 0 < d.size) {count : ℤ}
    (h : peelCount dims = some count) :
    (dims.map fun d => d.size.toNat).prod ≤ kMaxNdDmaPieces := by
  have hfold : ∀ (dims : List NdDim) (c r : ℤ), (∀ d ∈ dims, 0 < d.size) → 0 < c →
      c ≤ kMaxNdDmaPieces → dims.foldlM (fun count d =>
        if d.size > (kMaxNdDmaPieces : ℤ).tdiv count then none else some (count * d.size)) c =
          some r → c * ((dims.map fun d => d.size.toNat).prod : ℕ) ≤ kMaxNdDmaPieces := by
    intro dims
    induction dims with
    | nil => intro c r _ _ hc _; simpa using hc
    | cons d dims ih =>
      intro c r hpos hc _ h
      obtain ⟨hd, hpos⟩ := List.forall_mem_cons.1 hpos
      rw [List.foldlM_cons] at h
      split_ifs at h with hfit
      · cases h
      · rw [not_lt, Int.tdiv_eq_ediv_of_nonneg (by decide)] at hfit
        have hle : c * d.size ≤ kMaxNdDmaPieces := by
          rw [mul_comm]
          exact Int.mul_le_of_le_ediv hc hfit
        have hrest := ih (c * d.size) r hpos (Int.mul_pos hc hd) hle h
        rw [List.map_cons, List.prod_cons, Nat.cast_mul, Int.toNat_of_nonneg hd.le, ← mul_assoc]
        exact hrest
  have hall := hfold dims 1 count hpos one_pos (by decide) h
  rw [one_mul] at hall
  exact_mod_cast hall

theorem prod_toNat_eq_zero {dims : List NdDim} :
    (dims.map fun d => d.size.toNat).prod = 0 ↔ ¬ ∀ d ∈ dims, 0 < d.size := by
  rw [List.prod_eq_zero_iff, List.mem_map]
  constructor
  · rintro ⟨d, hd, hzero⟩ hall
    have := hall d hd
    omega
  · intro h
    rw [not_forall] at h
    obtain ⟨d, h⟩ := h
    rw [Classical.not_imp] at h
    exact ⟨d, h.1, by omega⟩

namespace DmaTarget

variable (T : DmaTarget)

/-- A pattern of exactly four dimensions that is lowered as it is. -/
structure Lowers (q : NdDmaPattern) : Prop where
  offsets : q.offsets.length = kNdDmaDims
  sizes : q.sizes.length = kNdDmaDims
  strides : q.strides.length = kNdDmaDims
  lowerable : T.Lowerable (.ofDims q.dims q.baseOffset)

variable {T}

theorem lowers_toVectors {q : Nd4Pattern} (h : T.Lowerable q) : T.Lowers q.toDims.toVectors := by
  refine ⟨rfl, rfl, rfl, ?_⟩
  have hq : Nd4Pattern.ofDims q.toDims.toVectors.dims q.toDims.toVectors.baseOffset = q := by
    obtain ⟨dim, base⟩ := q
    unfold Nd4Pattern.ofDims
    congr 1
    funext i
    match i with
    | 0 | 1 | 2 | 3 => rfl
  rwa [hq]

theorem decomposeDims_returned_iff {p : NdPattern} {qs : List Nd4Pattern}
    (h : T.decomposeDims p = some qs) : (qs ≠ [] ↔ ∀ d ∈ peeledDims p, 0 < d.size) ∧
      ((∀ d ∈ peeledDims p, 0 < d.size) → T.Returned qs) := by
  -- a list that is returned is not empty
  have hof : T.Returned qs → (∀ d ∈ peeledDims p, 0 < d.size) →
      (qs ≠ [] ↔ ∀ d ∈ peeledDims p, 0 < d.size) ∧
        ((∀ d ∈ peeledDims p, 0 < d.size) → T.Returned qs) :=
    fun hr hpeeled => ⟨iff_of_true hr.nonempty hpeeled, fun _ => hr⟩
  unfold decomposeDims at h
  simp only at h
  split_ifs at h with hlong hsq hfits hpasses hmerged
  · obtain ⟨pieces, hpieces, h⟩ := Option.bind_eq_some_iff.1 h
    unfold reduceIterationDims at hpieces
    obtain ⟨count, hcount, rfl⟩ := Option.map_eq_some_iff.1 hpieces
    have hpeeled : peeledDims p =
        (((squeezeUnitDims p).dims.drop 3).foldl pushIterationDim []).tail := by
      rw [peeledDims, if_pos hsq]
    rw [← hpeeled] at hcount h
    generalize Nd4Pattern.ofDims _ _ = piece at h
    obtain ⟨hdim, hlen⟩ := @dim_foldl_peelDim (peeledDims p) [piece] piece.dim
      (List.forall_mem_singleton.2 rfl)
    rw [List.length_singleton, Nat.mul_one] at hlen
    by_cases hpos : ∀ d ∈ peeledDims p, 0 < d.size
    · refine hof (decomposePieces_returned hdim (fun hnil => ?_) ?_ h) hpos
      · rw [hnil, List.length_nil] at hlen
        exact prod_toNat_eq_zero.1 hlen.symm hpos
      · rw [hlen]
        exact prod_le_of_peelCount hpos hcount
    · rw [prod_toNat_eq_zero.2 hpos] at hlen
      rw [List.eq_nil_of_length_eq_zero hlen] at h
      cases h
      exact ⟨iff_of_false (fun h => h rfl) hpos, fun h => absurd h hpos⟩
  · obtain ⟨pieces, hpieces, h⟩ := Option.bind_eq_some_iff.1 h
    cases hpieces
    have hnone : peeledDims p = [] := by rw [peeledDims, if_neg hsq]
    refine hof (decomposePieces_returned (List.forall_mem_singleton.2 rfl)
      (List.cons_ne_nil _ _) (by decide : 1 ≤ kMaxNdDmaPieces) h) ?_
    rw [hnone]
    exact List.forall_mem_nil _
  · cases h
    refine hof (returned_singleton (Or.inl hmerged)) ?_
    rw [peeledDims_of_length_le (by omega)]
    exact List.forall_mem_nil _
  · refine hof (decompose4d_returned (Bool.eq_false_iff.2 hfits) h) ?_
    rw [peeledDims_of_length_le (by omega)]
    exact List.forall_mem_nil _

/-- **A success returns** one pattern or more, within the limit, each of four dimensions and lowered
as it is, exactly where every peeled dimension has an index. -/
theorem decomposeNdDmaPattern_lowerable_iff {p : NdDmaPattern} {qs : List NdDmaPattern}
    (h : T.decomposeNdDmaPattern p = some qs) :
    (qs ≠ [] ∧ qs.length ≤ kMaxNdDmaPieces ∧ ∀ q ∈ qs, T.Lowers q) ↔
      ∀ d ∈ peeledDims p.toDims, 0 < d.size := by
  unfold decomposeNdDmaPattern at h
  split_ifs at h
  obtain ⟨rs, hrs, rfl⟩ := Option.map_eq_some_iff.mp h
  obtain ⟨hiff, hreturned⟩ := decomposeDims_returned_iff hrs
  constructor
  · rintro ⟨hne, -, -⟩
    refine hiff.mp fun hnil => hne ?_
    rw [hnil, List.map_nil]
  · intro hpeeled
    have hr := hreturned hpeeled
    refine ⟨fun hnil => hr.nonempty (List.map_eq_nil_iff.mp hnil), ?_, fun q hq => ?_⟩
    · rw [List.length_map]
      exact hr.length_le
    · obtain ⟨r, hmem, rfl⟩ := List.mem_map.mp hq
      exact lowers_toVectors (hr.lowerable r hmem)

end DmaTarget

def shimWords : DmaTarget where
  tm := AIE2TargetModel (fun _ _ => .ShimNOCTile) []
  col := 0
  row := 0
  elemWidth := 32

def fiveDims : NdDmaPattern :=
  ⟨[0, 0, 0, 0, 0], [8, 2, 2, 2, 2], [1, 16, 64, 256, 1024], 0⟩

/-- The pieces of `fiveDims`. -/
def fiveDimsPieces : List NdDmaPattern :=
  [⟨[0, 0, 0, 0], [8, 2, 2, 2], [1, 16, 64, 256], 0⟩,
    ⟨[0, 0, 0, 0], [8, 2, 2, 2], [1, 16, 64, 256], 1024⟩]

theorem fiveDims_lowerable_iff : (fiveDimsPieces ≠ [] ∧ fiveDimsPieces.length ≤ kMaxNdDmaPieces ∧
    ∀ q ∈ fiveDimsPieces, shimWords.Lowers q) ↔ ∀ d ∈ peeledDims fiveDims.toDims, 0 < d.size :=
  DmaTarget.decomposeNdDmaPattern_lowerable_iff (by decide +kernel)

/-- A dimension without an index is peeled into no piece at all. -/
theorem emptyDim_not_lowerable : ∃ qs, shimWords.decomposeNdDmaPattern
    ⟨[0, 0, 0, 0, 0], [8, 2, 2, 2, 0], [1, 16, 64, 256, 1024], 0⟩ = some qs ∧
    ¬ (qs ≠ [] ∧ qs.length ≤ kMaxNdDmaPieces ∧ ∀ q ∈ qs, shimWords.Lowers q) :=
  ⟨[], by decide +kernel, fun h => h.1 rfl⟩

end MlirAie.Dma
