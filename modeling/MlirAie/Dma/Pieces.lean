import MlirAie.Dma.Stream

/-!
# What a piece of a decomposition is

Every pattern a decomposition ends with passes the checks of a descriptor, or is lowered as a plain
length. Either way its dimensions are positive, its strides forward and its iterations few.

* `require_bind_ok`, `requireAll_bind_ok`: what a sequence of checks has established;
* `DmaTarget.Holds`: the facts about a piece;
* `decomposeRecursive_holds`, `decomposePieces_holds`, **`decomposeDims_holds`**.
-/

namespace MlirAie.Dma

open MlirAie.Lib MlirAie.Bd

/-! ## Sequences of checks -/

theorem require_bind_ok {α : Type} {c : Bool} {m : String} {f : Unit → Except String α} {a : α} :
    (require c m >>= f) = .ok a ↔ c = true ∧ f () = .ok a := by
  unfold require
  split_ifs with h
  · exact ⟨fun hf => ⟨h, hf⟩, fun hf => hf.2⟩
  · exact ⟨fun hf => (by cases hf), fun hf => absurd hf.1 h⟩

theorem requireAll_bind_ok {ι α : Type} {l : List ι} {c : ι → Bool} {m : ι → String}
    {f : PUnit → Except String α} {a : α} :
    ((forIn l PUnit.unit fun i _ => do
        require (c i) (m i)
        pure (ForInStep.yield PUnit.unit)) >>= f) = .ok a ↔
      (∀ i ∈ l, c i = true) ∧ f PUnit.unit = .ok a := by
  induction l with
  | nil =>
    rw [List.forIn_nil, pure_bind]
    exact ⟨fun h => ⟨fun _ hi => (by cases hi), h⟩, fun h => h.2⟩
  | cons i l ih =>
    rw [List.forIn_cons, bind_assoc, bind_assoc, require_bind_ok, List.forall_mem_cons, and_assoc]
    simp only [pure_bind]
    rw [ih]

/-! ## Pieces -/

namespace DmaTarget

variable (T : DmaTarget)

/-- What a descriptor needs of a pattern to run it. -/
structure Holds (q : Nd4Pattern) : Prop where
  positive : AllPositive q.toDims.dims
  forward : ∀ d ∈ ([0, 1, 2] : List (Fin 4)), 1 < q.sizes d → 0 < q.strides d
  iterations : q.sizes 3 ≤ max T.maxIterations (T.tm.getMaxRepeatCount + 1)

variable {T}

theorem allPositive_toDims {q : Nd4Pattern} (h : ∀ d, 0 < q.sizes d) :
    AllPositive q.toDims.dims := by
  intro d hd
  simp only [Nd4Pattern.toDims, List.mem_cons, List.not_mem_nil, or_false] at hd
  rcases hd with rfl | rfl | rfl | rfl
  all_goals exact h _

/-- **A pattern that passes the checks.** -/
theorem holds_of_passes {q : Nd4Pattern} {skip : Bool}
    (h : T.patternPassesVerification q skip = true) : T.Holds q := by
  simp only [patternPassesVerification] at h
  split at h
  · rename_i hok
    unfold verifyStridesWraps at hok
    simp only [require_bind_ok, requireAll_bind_ok] at hok
    obtain ⟨-, hpos, -, hstride, -, -, -, -, hiter, -⟩ := hok
    refine ⟨allPositive_toDims fun d => of_decide_eq_true (hpos d (List.mem_finRange d)),
      fun d hd hsize => ?_, ?_⟩
    · have hd := hstride d hd
      simp only [Bool.not_eq_true', Bool.and_eq_false_iff, decide_eq_false_iff_not] at hd
      omega
    · have hiter := of_decide_eq_true hiter
      unfold maxCount at hiter
      split_ifs at hiter
      · exact le_max_of_le_right hiter
      · exact le_max_of_le_left hiter
  · cases h

theorem forward_of_contiguous {q : Nd4Pattern} (hpos : AllPositive q.toDims.dims)
    (h : isContiguousTransfer q.sizes q.strides = true) :
    ∀ d ∈ ([0, 1, 2] : List (Fin 4)), 1 < q.sizes d → 0 < q.strides d := by
  have h0 : 0 < q.sizes 0 := hpos (q.dim 0) (by simp [Nd4Pattern.toDims])
  have h1 : 0 < q.sizes 1 := hpos (q.dim 1) (by simp [Nd4Pattern.toDims])
  have hmul : 0 < q.sizes 0 * q.sizes 1 := Int.mul_pos h0 h1
  unfold isContiguousTransfer at h
  split_ifs at h with hs0 hs1 hs2
  intro d hd hsize
  simp only [List.mem_cons, List.not_mem_nil, or_false] at hd
  rcases hd with rfl | rfl | rfl
  all_goals omega

theorem holds_of_contiguousAndFits {q : Nd4Pattern} (hpos : AllPositive q.toDims.dims)
    (h : T.contiguousAndFits q = true) : T.Holds q := by
  rw [contiguousAndFits, Bool.and_eq_true] at h
  exact ⟨hpos, forward_of_contiguous hpos h.1, le_max_of_le_left (of_decide_eq_true h.2)⟩

theorem factorToLegal_holds (p : Nd4Pattern) {q : Nd4Pattern} (h : T.factorToLegal p = some q) :
    T.Holds q := by
  rw [factorToLegal] at h
  split_ifs at h with hp
  · cases h
    exact holds_of_passes hp
  · obtain ⟨r, -, hr⟩ := List.exists_of_findSome?_eq_some h
    exact factorToLegal_holds r.1 hr
termination_by (indexCount p, idleDims p)
decreasing_by exact factorings_lt r.2

theorem holds_of_foldlM {α : Type} {step : List Nd4Pattern → α → Option (List Nd4Pattern)}
    {xs : List α} {acc r : List Nd4Pattern} (hacc : ∀ q ∈ acc, T.Holds q)
    (hstep : ∀ acc, (∀ q ∈ acc, T.Holds q) → ∀ x ∈ xs, ∀ r, step acc x = some r →
      ∀ q ∈ r, T.Holds q) (h : xs.foldlM step acc = some r) : ∀ q ∈ r, T.Holds q := by
  induction xs generalizing acc with
  | nil =>
    cases h
    exact hacc
  | cons x xs ih =>
    rw [List.foldlM_cons] at h
    obtain ⟨acc', hacc', h⟩ := Option.bind_eq_some_iff.1 h
    exact ih (hstep acc hacc x List.mem_cons_self acc' hacc')
      (fun acc ha y hy => hstep acc ha y (List.mem_cons_of_mem _ hy)) h

theorem holds_append {qs rs : List Nd4Pattern} (hq : ∀ q ∈ qs, T.Holds q)
    (hr : ∀ q ∈ rs, T.Holds q) : ∀ q ∈ qs ++ rs, T.Holds q := by
  intro q h
  rcases List.mem_append.1 h with h | h
  · exact hq q h
  · exact hr q h

theorem decomposeRecursive_holds (p : Nd4Pattern) {qs : List Nd4Pattern}
    (hpos : AllPositive p.toDims.dims) (h : T.decomposeRecursive p = some qs) :
    ∀ q ∈ qs, T.Holds q := by
  rw [decomposeRecursive] at h
  split at h
  · rename_i hlegal
    cases h
    exact List.forall_mem_singleton.2 (holds_of_passes hlegal)
  split at h
  · cases h
  rename_i d hd
  split at h
  · rename_i legal hlegal
    cases h
    exact List.forall_mem_singleton.2 (factorToLegal_holds p hlegal)
  split at h
  · rename_i sub hsub
    cases h
    obtain ⟨r, -, hr⟩ := List.exists_of_findSome?_eq_some hsub
    exact decomposeRecursive_holds r.1 (factoring_positive r.2 hpos) hr
  simp only at h
  split_ifs at h with hchunk hmax
  obtain ⟨hactive, -⟩ := outermostDim_spec hpos hd
  refine holds_of_foldlM (fun _ hq => by cases hq) (fun acc hacc i hi r hstep => ?_) h
  rw [List.mem_range] at hi
  split at hstep
  · cases hstep
  rename_i slice hslice
  obtain ⟨sub, hsub, hstep⟩ := Option.bind_eq_some_iff.1 hstep
  split_ifs at hstep
  cases hstep
  obtain ⟨x, hx, hsize, -⟩ := T.sliceAt_eq hslice
  have hlt := lt_of_lt_numChunks hchunk.1 (by omega) hi
  have hdec : indexCount slice < indexCount p := by
    rw [hx]
    exact indexCount_setDim_lt p d hactive (by omega)
  have hslicePos : AllPositive slice.toDims.dims := hx ▸ slice_positive (by omega) hpos
  exact holds_append hacc (decomposeRecursive_holds slice hslicePos hsub)
termination_by (indexCount p, idleDims p)
decreasing_by
  · exact factorings_lt r.2
  · exact .left _ _ hdec

theorem sliceIterations_holds {p : Nd4Pattern} {qs : List Nd4Pattern}
    (hpos : AllPositive p.toDims.dims) (hp : isContiguousTransfer p.sizes p.strides = true)
    (h : sliceIterations p T.maxIterations = some qs) : ∀ q ∈ qs, T.Holds q := by
  have hchunk : 0 < T.maxIterations := Int.pow_pos (by decide)
  have hsize : 0 < p.sizes 3 := hpos (p.dim 3) (by simp [Nd4Pattern.toDims])
  unfold sliceIterations at h
  split_ifs at h
  cases h
  intro q hq
  obtain ⟨i, hi, rfl⟩ := List.mem_map.1 hq
  have hlt := lt_of_lt_numChunks hchunk hsize (List.mem_range.1 hi)
  refine holds_of_contiguousAndFits (slice_positive ?_ hpos) ?_
  · show 0 < min T.maxIterations (p.sizes 3 - i * T.maxIterations)
    omega
  · rw [contiguousAndFits, Bool.and_eq_true]
    refine ⟨hp, decide_eq_true ?_⟩
    show min T.maxIterations (p.sizes 3 - i * T.maxIterations) ≤ T.maxIterations
    exact min_le_left _ _

theorem decompose4d_holds {p : Nd4Pattern} {qs : List Nd4Pattern}
    (hpos : AllPositive p.toDims.dims) (h : T.decompose4d p = some qs) : ∀ q ∈ qs, T.Holds q := by
  unfold decompose4d at h
  split_ifs at h with hp
  · exact sliceIterations_holds hpos hp h
  · exact decomposeRecursive_holds p hpos h

theorem decomposePieces_holds {pieces qs : List Nd4Pattern}
    (hpos : ∀ p ∈ pieces, AllPositive p.toDims.dims) (h : T.decomposePieces pieces = some qs) :
    ∀ q ∈ qs, T.Holds q := by
  refine holds_of_foldlM (fun _ hq => by cases hq) (fun acc hacc p hp r hstep => ?_) h
  split_ifs at hstep with hkeep
  · cases hstep
    refine holds_append hacc (List.forall_mem_singleton.2 ?_)
    rcases Bool.or_eq_true_iff.1 hkeep with hkeep | hkeep
    · exact holds_of_contiguousAndFits (hpos p hp) hkeep
    · exact holds_of_passes hkeep
  · obtain ⟨sub, hsub, hstep⟩ := Option.bind_eq_some_iff.1 hstep
    split_ifs at hstep
    cases hstep
    exact holds_append hacc (decompose4d_holds (hpos p hp) hsub)

/-- **Every piece of a decomposition is one a descriptor runs.** -/
theorem decomposeDims_holds {p : NdPattern} {qs : List Nd4Pattern} (hpos : AllPositive p.dims)
    (h : T.decomposeDims p = some qs) : ∀ q ∈ qs, T.Holds q := by
  unfold decomposeDims at h
  simp only at h
  split_ifs at h with hlong hsq _ _ hmerged
  · obtain ⟨pieces, hpieces, h⟩ := Option.bind_eq_some_iff.1 h
    exact decomposePieces_holds
      (reduceIterationDims_addresses (squeezeUnitDims_positive hpos) hpieces).2 h
  · obtain ⟨pieces, hpieces, h⟩ := Option.bind_eq_some_iff.1 h
    cases hpieces
    exact decomposePieces_holds
      (List.forall_mem_singleton.2 (ofDims_positive (squeezeUnitDims_positive hpos) _)) h
  · cases h
    exact List.forall_mem_singleton.2 (holds_of_passes hmerged)
  · exact decompose4d_holds (ofDims_positive hpos _) h

end DmaTarget

end MlirAie.Dma
