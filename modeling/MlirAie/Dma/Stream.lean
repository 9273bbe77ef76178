import MlirAie.Dma.Decompose

/-!
# The stream of a decomposition

The patterns `decomposeNdDmaPattern` returns emit, one after the other, the element stream of the
pattern it was given: the same addresses in the same order.

Each rewrite keeps the walk of the dimensions. Merging and factoring are `nest_run_run` in its two
directions, slicing cuts the outermost run, and what a dropped dimension's offset adds moves into
the base.

* `decomposeRecursive_addresses`: their composition;
* `squeezeFrom_walk`, `reduceIterationDims_addresses`: the rewrites of more than four;
* **`decomposeNdDmaPattern_addresses`**.
-/

namespace MlirAie.Dma

open MlirAie.Lib MlirAie.Bd

def AllPositive (ds : List NdDim) : Prop := ∀ d ∈ ds, 0 < d.size

@[grind =] def streamOf (qs : List Nd4Pattern) : List ℤ := qs.flatMap Nd4Pattern.addresses

theorem AllPositive.append {ds es : List NdDim} (hd : AllPositive ds) (he : AllPositive es) :
    AllPositive (ds ++ es) := by
  intro d h
  rcases List.mem_append.1 h with h | h
  · exact hd d h
  · exact he d h

theorem allPositive_cons {d : NdDim} {ds : List NdDim} :
    AllPositive (d :: ds) ↔ 0 < d.size ∧ AllPositive ds := List.forall_mem_cons

theorem allPositive_append {ds es : List NdDim} :
    AllPositive (ds ++ es) ↔ AllPositive ds ∧ AllPositive es := List.forall_mem_append

theorem Nd4Pattern.addresses_eq (p : Nd4Pattern) :
    p.addresses = (dimsWalk p.toDims.dims).map (p.baseOffset + ·) := NdPattern.addresses_eq _

/-! ## Merging and factoring -/

/-- A dimension that continues the one inside it. -/
theorem run_merge {cur next merged : NdDim} (hcur : 0 ≤ cur.size) (hnext : 0 ≤ next.size)
    (hstride : next.stride = cur.size * cur.stride)
    (hstart : merged.start = cur.start + next.start) (hsize : merged.size = cur.size * next.size)
    (hmerged : merged.stride = cur.stride) : merged.run = nest cur.run next.run := by
  have hcast : next.stride = (cur.size.toNat : ℤ) * cur.stride := by
    rw [Int.toNat_of_nonneg hcur, hstride]
  rw [NdDim.run, NdDim.run, NdDim.run, hcast, nest_run_run, hstart, hsize, hmerged,
    Int.toNat_mul hcur hnext]

theorem mergeFrom_walk (T : DmaTarget) (d : ℕ) (cur : NdDim) (rest : List NdDim) :
    dimsWalk (T.mergeFrom d cur rest) = dimsWalk (cur :: rest) := by
  induction rest generalizing d cur with
  | nil => rfl
  | cons next rest ih =>
    rw [DmaTarget.mergeFrom]
    split_ifs with hc
    · simp only [DmaTarget.continuesDim, Bool.not_eq_eq_eq_not, Bool.not_true, Bool.or_eq_false_iff,
        decide_eq_false_iff_not, bne_eq_false_iff_eq] at hc
      obtain ⟨⟨⟨⟨hcur, hnext⟩, -⟩, hstride⟩, -⟩ := hc
      rw [ih, dimsWalk_cons, dimsWalk_cons, dimsWalk_cons, ← nest_assoc]
      congr 1
      refine run_merge (by omega) (by omega) hstride ?_ rfl rfl
      simp only [NdDim.start, hstride]
      ring
    · rw [dimsWalk_cons, ih, dimsWalk_cons, dimsWalk_cons, dimsWalk_cons]

theorem mergeFrom_length (T : DmaTarget) (d : ℕ) (cur : NdDim) (rest : List NdDim) :
    (T.mergeFrom d cur rest).length ≤ rest.length + 1 := by
  induction rest generalizing d cur with
  | nil => exact le_rfl
  | cons next rest ih =>
    rw [DmaTarget.mergeFrom]
    split_ifs
    · have := ih d { cur with offset := cur.offset + next.offset * cur.size,
                              size := cur.size * next.size }
      rw [List.length_cons]
      omega
    · have := ih (d + 1) next
      rw [List.length_cons, List.length_cons]
      omega

theorem ofDims_addresses {ds : List NdDim} (h : ds.length ≤ 4) (base : ℤ) :
    (Nd4Pattern.ofDims ds base).addresses = (dimsWalk ds).map (base + ·) := by
  have hunit : ({} : NdDim).run = [0] := NdDim.run_of_size_one rfl
  rw [Nd4Pattern.addresses_eq]
  match ds, h with
  | [], _ | [_], _ | [_, _], _ | [_, _, _], _ | [_, _, _, _], _ =>
    simp [Nd4Pattern.ofDims, Nd4Pattern.toDims, dimsWalk_cons, hunit]

theorem mergeContiguousDims_addresses (T : DmaTarget) (p : Nd4Pattern) :
    (T.mergeContiguousDims p).addresses = p.addresses := by
  rw [DmaTarget.mergeContiguousDims, ofDims_addresses (mergeFrom_length T 0 _ _), mergeFrom_walk,
    Nd4Pattern.addresses_eq]
  rfl

theorem run_split {d : NdDim} {a b : ℤ} (ha : 0 ≤ a) (hb : 0 ≤ b) (hab : b * a = d.size) :
    d.run = nest { d with size := b }.run (NdDim.mk 0 a (b * d.stride)).run :=
  run_merge hb ha rfl (by simp [NdDim.start]) hab.symm rfl

/-- **A factoring emits the stream of the pattern it factors.** -/
theorem factoring_addresses {elemWidth gran : ℕ} {p q : Nd4Pattern}
    (h : q ∈ factorings elemWidth gran p) : q.addresses = p.addresses := by
  obtain ⟨h3, hoff, d, a, b, ha, hb, hab, rfl⟩ := mem_factorings h
  obtain ⟨pre, post, hp, hq⟩ := splitDim_dims p d
  have hlast : (p.dim 3).run = [0] := by
    rw [NdDim.run_of_size_one h3, NdDim.start]
    simp only [outerSlotHasOffset, Bool.and_eq_false_iff, bne_eq_false_iff_eq] at hoff
    rcases hoff with hoff | hoff
    · rw [show (p.dim 3).offset = 0 from hoff, zero_mul]
    · rw [show (p.dim 3).stride = 0 from hoff, mul_zero]
  have hsplit := run_split (d := p.dim d.castSucc) (by omega) (by omega) hab
  rw [Nd4Pattern.addresses_eq, Nd4Pattern.addresses_eq, hq, hp, dimsWalk_append, dimsWalk_append,
    dimsWalk_cons, dimsWalk_cons, dimsWalk_cons, dimsWalk_append, dimsWalk_cons _ [], hlast,
    dimsWalk_nil, nest_zero, nest_zero, hsplit, nest_assoc]
  rfl

theorem factoring_positive {elemWidth gran : ℕ} {p q : Nd4Pattern}
    (h : q ∈ factorings elemWidth gran p) (hpos : AllPositive p.toDims.dims) :
    AllPositive q.toDims.dims := by
  obtain ⟨-, -, d, a, b, ha, hb, -, rfl⟩ := mem_factorings h
  obtain ⟨pre, post, hp, hq⟩ := splitDim_dims p d
  rw [hp] at hpos
  rw [hq]
  simp only [allPositive_append, allPositive_cons] at hpos ⊢
  exact ⟨hpos.1, by omega, by omega, hpos.2.2.1⟩

theorem factorToLegal_addresses (T : DmaTarget) (p : Nd4Pattern) {q : Nd4Pattern}
    (h : T.factorToLegal p = some q) : q.addresses = p.addresses := by
  rw [DmaTarget.factorToLegal] at h
  split_ifs at h
  · cases h
    rfl
  · obtain ⟨r, -, hr⟩ := List.exists_of_findSome?_eq_some h
    rw [factorToLegal_addresses T r.1 hr, factoring_addresses r.2]
termination_by (indexCount p, idleDims p)
decreasing_by exact factorings_lt r.2

/-! ## Slicing -/

theorem numChunks_covers {n chunk : ℤ} (hc : 0 < chunk) (hn : 0 < n) :
    n.toNat ≤ (numChunks n chunk).toNat * chunk.toNat := by
  have hlt := Int.lt_tdiv_add_one_mul_self (n + chunk - 1) hc
  have hnonneg : 0 ≤ numChunks n chunk := Int.tdiv_nonneg (by omega) hc.le
  rw [← Int.toNat_mul hnonneg hc.le]
  refine Int.toNat_le_toNat ?_
  rw [numChunks]
  rw [add_mul] at hlt
  omega

theorem lt_of_lt_numChunks {n chunk : ℤ} {i : ℕ} (hc : 0 < chunk) (hn : 0 < n)
    (hi : i < (numChunks n chunk).toNat) : i * chunk < n := by
  have hle : chunk * numChunks n chunk ≤ n + chunk - 1 := Int.mul_tdiv_self_le (by omega)
  have hmul : chunk * ((i : ℤ) + 1) ≤ chunk * numChunks n chunk :=
    Int.mul_le_mul_of_nonneg_left (by omega) hc.le
  rw [mul_add, mul_one, mul_comm chunk] at hmul
  omega

theorem run_congr {x y : NdDim} (hstart : x.start = y.start) (hsize : x.size = y.size)
    (hstride : x.stride = y.stride ∨ x.size = 1) : x.run = y.run := by
  rcases hstride with hstride | hone
  · rw [NdDim.run, NdDim.run, hstart, hsize, hstride]
  · rw [NdDim.run_of_size_one hone, NdDim.run_of_size_one (hsize ▸ hone), hstart]

theorem setDim_addresses_congr (p : Nd4Pattern) (d : Fin 4) {x y : NdDim} (h : x.run = y.run) :
    (p.setDim d x).addresses = (p.setDim d y).addresses := by
  obtain ⟨pre, post, -, -, hset⟩ := setDim_dims p d
  rw [Nd4Pattern.addresses_eq, Nd4Pattern.addresses_eq, hset, hset, dimsWalk_append,
    dimsWalk_append, dimsWalk_cons, dimsWalk_cons, h]
  rfl

theorem sliceAt_addresses (T : DmaTarget) {p q : Nd4Pattern} {d : Fin 4} {chunk : ℤ} {i : ℕ}
    (h : T.sliceAt p d chunk i = some q) : q.addresses = (p.slice d chunk i).addresses := by
  obtain ⟨x, rfl, hsize, hstart, hstride⟩ := T.sliceAt_eq h
  exact setDim_addresses_congr p d (run_congr hstart hsize hstride)

theorem dimsWalk_of_units {ds : List NdDim} (h : ∀ d ∈ ds, d.size = 1) :
    ∃ c, dimsWalk ds = [c] := by
  induction ds with
  | nil => exact ⟨0, rfl⟩
  | cons d ds ih =>
    obtain ⟨c, hc⟩ := ih fun x hx => h x (List.mem_cons_of_mem _ hx)
    refine ⟨c + d.start, ?_⟩
    rw [dimsWalk_cons, hc, NdDim.run_of_size_one (h d List.mem_cons_self), nest_singleton]
    rfl

theorem slice_run {d : NdDim} {chunk : ℤ} (hc : 0 < chunk) (i : ℕ) :
    (NdDim.mk (d.offset + i * chunk) (min chunk (d.size - i * chunk)) d.stride).run =
      Lib.run (d.start + (i * chunk.toNat : ℕ) * d.stride) d.stride
        (min chunk.toNat (d.size.toNat - i * chunk.toNat)) := by
  have hcast : ((i * chunk.toNat : ℕ) : ℤ) = i * chunk := by
    rw [Nat.cast_mul, Int.toNat_of_nonneg hc.le]
  have hsize : (min chunk (d.size - i * chunk)).toNat =
      min chunk.toNat (d.size.toNat - i * chunk.toNat) := by
    rw [← hcast]
    omega
  have hstart : (d.offset + i * chunk) * d.stride = d.start + i * chunk * d.stride := add_mul ..
  rw [NdDim.run, NdDim.start, hsize, hcast, hstart]

/-- **The slices of the outermost active dimension emit the stream in order.** -/
theorem slices_addresses {p : Nd4Pattern} {d : Fin 4} {chunk : ℤ} {k : ℕ} (hc : 0 < chunk)
    (houter : ∀ x ∈ p.toDims.dims.drop (d + 1), x.size = 1)
    (hk : (p.sizes d).toNat ≤ k * chunk.toNat) :
    ((List.range k).flatMap fun i => (p.slice d chunk i).addresses) = p.addresses := by
  obtain ⟨pre, post, hp, hpost, hset⟩ := setDim_dims p d
  obtain ⟨c, hcwalk⟩ := dimsWalk_of_units (hpost ▸ houter)
  have hslice (i : ℕ) : (p.slice d chunk i).addresses = (nest (dimsWalk pre)
      ((Lib.run ((p.dim d).start + (i * chunk.toNat : ℕ) * (p.dim d).stride) (p.dim d).stride
        (min chunk.toNat ((p.dim d).size.toNat - i * chunk.toNat))).map (c + ·))).map
      (p.baseOffset + ·) := by
    rw [Nd4Pattern.addresses_eq, Nd4Pattern.slice, hset, dimsWalk_append, dimsWalk_cons, hcwalk,
      nest_singleton, ← slice_run hc]
    rfl
  have hrun : (p.dim d).run = (List.range k).flatMap fun i =>
      Lib.run ((p.dim d).start + (i * chunk.toNat : ℕ) * (p.dim d).stride) (p.dim d).stride
        (min chunk.toNat ((p.dim d).size.toNat - i * chunk.toNat)) := by
    rw [run_flatMap_chunks, show min (k * chunk.toNat) (p.dim d).size.toNat = _ from min_eq_right hk]
    rfl
  rw [Nd4Pattern.addresses_eq, hp, dimsWalk_append, dimsWalk_cons, hcwalk, nest_singleton, hrun,
    List.map_flatMap, nest_flatMap, List.map_flatMap]
  exact List.flatMap_congr fun i _ => hslice i

theorem slice_positive {p : Nd4Pattern} {d : Fin 4} {x : NdDim} (hx : 0 < x.size)
    (hpos : AllPositive p.toDims.dims) : AllPositive (p.setDim d x).toDims.dims := by
  obtain ⟨pre, post, hp, -, hset⟩ := setDim_dims p d
  rw [hp, allPositive_append, allPositive_cons] at hpos
  rw [hset, allPositive_append, allPositive_cons]
  exact ⟨hpos.1, hx, hpos.2.2⟩

theorem mem_drop_dims {p : Nd4Pattern} {d : Fin 4} {x : NdDim}
    (h : x ∈ p.toDims.dims.drop (d + 1)) : ∃ i, d < i ∧ x = p.dim i := by
  match d with
  | 0 =>
    rcases List.mem_cons.1 h with rfl | h
    · exact ⟨1, by decide, rfl⟩
    rcases List.mem_pair.1 h with rfl | rfl
    · exact ⟨2, by decide, rfl⟩
    · exact ⟨3, by decide, rfl⟩
  | 1 =>
    rcases List.mem_pair.1 h with rfl | rfl
    · exact ⟨2, by decide, rfl⟩
    · exact ⟨3, by decide, rfl⟩
  | 2 =>
    obtain rfl := List.mem_singleton.1 h
    exact ⟨3, by decide, rfl⟩
  | 3 => cases h

theorem outermostDim_spec {p : Nd4Pattern} {d : Fin 4} (hpos : AllPositive p.toDims.dims)
    (h : outermostDim p = some d) :
    1 < p.sizes d ∧ ∀ x ∈ p.toDims.dims.drop (d + 1), x.size = 1 := by
  obtain ⟨hd, pre, post, hlist, hpre⟩ := List.find?_eq_some_iff_append.1 h
  refine ⟨of_decide_eq_true hd, fun x hx => ?_⟩
  have hx1 : 0 < x.size := hpos x (List.mem_of_mem_drop hx)
  obtain ⟨i, hi, rfl⟩ := mem_drop_dims hx
  have hsorted : List.Pairwise (· > ·) ([3, 2, 1, 0] : List (Fin 4)) := by decide
  have hall : ∀ i : Fin 4, i ∈ ([3, 2, 1, 0] : List (Fin 4)) := by decide
  have hmem := hall i
  rw [hlist] at hsorted hmem
  have hout : ¬ 1 < p.sizes i := by
    rcases List.mem_append.1 hmem with hmem | hmem
    · simpa using hpre i hmem
    · rcases List.mem_cons.1 hmem with rfl | hmem
      · exact absurd hi (lt_irrefl _)
      · have := (List.pairwise_cons.1 (List.pairwise_append.1 hsorted).2.1).1 i hmem
        exact absurd hi (not_lt_of_gt this)
  rw [Nd4Pattern.sizes] at hout
  omega

/-! ## The recursion -/

theorem decomposeRecursive_addresses (T : DmaTarget) (p : Nd4Pattern) {qs : List Nd4Pattern}
    (hpos : AllPositive p.toDims.dims) (h : T.decomposeRecursive p = some qs) :
    streamOf qs = p.addresses := by
  rw [DmaTarget.decomposeRecursive] at h
  split at h
  · cases h
    exact List.flatMap_singleton ..
  split at h
  · cases h
  rename_i d hd
  split at h
  · rename_i legal hlegal
    cases h
    rw [streamOf, List.flatMap_singleton]
    exact factorToLegal_addresses T p hlegal
  split at h
  · rename_i sub hsub
    cases h
    obtain ⟨r, -, hr⟩ := List.exists_of_findSome?_eq_some hsub
    rw [decomposeRecursive_addresses T r.1 (factoring_positive r.2 hpos) hr,
      factoring_addresses r.2]
  simp only at h
  split_ifs at h with hchunk hmax
  obtain ⟨hactive, houter⟩ := outermostDim_spec hpos hd
  have hcovers := numChunks_covers (n := p.sizes d) hchunk.1 (by omega)
  rw [← slices_addresses hchunk.1 houter hcovers]
  refine flatMap_of_foldlM Nd4Pattern.addresses _ (fun acc i hi r hstep => ?_) h
  rw [List.mem_range] at hi
  split at hstep
  · cases hstep
  rename_i slice hslice
  obtain ⟨sub, hsub, hstep⟩ := Option.bind_eq_some_iff.1 hstep
  split_ifs at hstep
  cases hstep
  obtain ⟨x, hx, hsize, -⟩ := T.sliceAt_eq hslice
  have hlt := lt_of_lt_numChunks hchunk.1 (by omega) hi
  have hxpos : 0 < x.size := by omega
  have hdec : indexCount slice < indexCount p := by
    rw [hx]
    exact indexCount_setDim_lt p d hactive (by omega)
  rw [List.flatMap_append, ← sliceAt_addresses T hslice]
  congr 1
  exact decomposeRecursive_addresses T slice (hx ▸ slice_positive hxpos hpos) hsub
termination_by (indexCount p, idleDims p)
decreasing_by
  · exact factorings_lt r.2
  · exact .left _ _ hdec

theorem sliceIterations_addresses {p : Nd4Pattern} {chunk : ℤ} {qs : List Nd4Pattern}
    (hc : 0 < chunk) (hpos : 0 < p.sizes 3) (h : sliceIterations p chunk = some qs) :
    streamOf qs = p.addresses := by
  unfold sliceIterations at h
  split_ifs at h
  cases h
  rw [streamOf, List.flatMap_map]
  exact slices_addresses hc (fun _ hx => nomatch hx) (numChunks_covers hc hpos)

theorem decompose4d_addresses (T : DmaTarget) {p : Nd4Pattern} {qs : List Nd4Pattern}
    (hpos : AllPositive p.toDims.dims) (h : T.decompose4d p = some qs) :
    streamOf qs = p.addresses := by
  unfold DmaTarget.decompose4d at h
  split_ifs at h
  · refine sliceIterations_addresses ?_ (hpos (p.dim 3) ?_) h
    · exact Int.pow_pos (by decide)
    · simp [Nd4Pattern.toDims]
  · exact decomposeRecursive_addresses T p hpos h

theorem decomposePieces_addresses (T : DmaTarget) {pieces qs : List Nd4Pattern}
    (hpos : ∀ p ∈ pieces, AllPositive p.toDims.dims) (h : T.decomposePieces pieces = some qs) :
    streamOf qs = streamOf pieces := by
  refine flatMap_of_foldlM Nd4Pattern.addresses _ (fun acc p hp r hstep => ?_) h
  split_ifs at hstep
  · cases hstep
    rw [List.flatMap_append, List.flatMap_singleton]
  · obtain ⟨sub, hsub, hstep⟩ := Option.bind_eq_some_iff.1 hstep
    split_ifs at hstep
    cases hstep
    rw [List.flatMap_append]
    congr 1
    exact decompose4d_addresses T (hpos p hp) hsub

/-! ## More than four dimensions -/

theorem squeezeFrom_walk (excess : ℕ) (ds : List NdDim) :
    dimsWalk ds =
      (dimsWalk (squeezeFrom excess ds).1).map ((squeezeFrom excess ds).2 + ·) := by
  induction ds generalizing excess with
  | nil => simp [squeezeFrom]
  | cons d ds ih =>
    cases excess with
    | zero => simp [squeezeFrom]
    | succ excess =>
      rw [squeezeFrom]
      split_ifs with hone
      · rw [dimsWalk_cons, NdDim.run_of_size_one hone, singleton_nest, ih excess, List.map_map]
        refine List.map_congr_left fun a _ => ?_
        simp only [Function.comp_apply, NdDim.start]
        ring
      · rw [dimsWalk_cons, ih (excess + 1), nest_map_add, dimsWalk_cons]

theorem squeezeFrom_subset (excess : ℕ) (ds : List NdDim) :
    ∀ d ∈ (squeezeFrom excess ds).1, d ∈ ds := by
  induction ds generalizing excess with
  | nil => simp [squeezeFrom]
  | cons d ds ih =>
    cases excess with
    | zero => simp [squeezeFrom]
    | succ excess =>
      rw [squeezeFrom]
      split_ifs
      · exact fun x hx => List.mem_cons_of_mem _ (ih excess x hx)
      · refine List.forall_mem_cons.2 ⟨List.mem_cons_self, fun x hx => ?_⟩
        exact List.mem_cons_of_mem _ (ih (excess + 1) x hx)

theorem squeezeUnitDims_addresses (p : NdPattern) : (squeezeUnitDims p).addresses = p.addresses := by
  obtain ⟨dims, base⟩ := p
  cases dims with
  | nil => rfl
  | cons d0 ds =>
    rw [NdPattern.addresses_eq, NdPattern.addresses_eq, squeezeUnitDims]
    simp only
    rw [dimsWalk_cons, dimsWalk_cons d0 ds, squeezeFrom_walk ((d0 :: ds).length - kNdDmaDims) ds,
      nest_map_add, List.map_map]
    refine List.map_congr_left fun a _ => ?_
    simp only [Function.comp_apply]
    ring

theorem squeezeUnitDims_positive {p : NdPattern} (hpos : AllPositive p.dims) :
    AllPositive (squeezeUnitDims p).dims := by
  obtain ⟨dims, base⟩ := p
  cases dims with
  | nil => exact hpos
  | cons d0 ds =>
    obtain ⟨h0, hds⟩ := allPositive_cons.1 hpos
    exact allPositive_cons.2 ⟨h0, fun x hx => hds x (squeezeFrom_subset _ ds x hx)⟩

theorem pushIterationDim_walk {dims : List NdDim} {d : NdDim} (hdims : AllPositive dims)
    (hd : 0 < d.size) :
    dimsWalk (dims ++ [d]) = (dimsWalk (pushIterationDim dims d)).map (d.start + ·) := by
  have hrun : d.run = (NdDim.mk 0 d.size d.stride).run.map (d.start + ·) := by
    rw [NdDim.run, NdDim.run, run_map_add, NdDim.start, NdDim.start, zero_mul, add_zero]
  have happend : dimsWalk (dims ++ [d]) =
      (dimsWalk (dims ++ [⟨0, d.size, d.stride⟩])).map (d.start + ·) := by
    rw [dimsWalk_append, dimsWalk_append, dimsWalk_cons, dimsWalk_cons, dimsWalk_nil, nest_zero,
      nest_zero, hrun, nest_map_add]
  rw [pushIterationDim]
  split_ifs with hone
  · rw [dimsWalk_append, dimsWalk_cons, dimsWalk_nil, nest_zero, NdDim.run_of_size_one hone,
      nest_singleton]
  split
  · rename_i hlast
    rw [happend, List.getLast?_eq_none_iff.1 hlast, List.nil_append]
  · rename_i last hlast
    split_ifs with hstride
    · obtain ⟨init, rfl⟩ := List.getLast?_eq_some_iff.1 hlast
      have hmerge : NdDim.run { last with size := last.size * d.size } =
          nest last.run (NdDim.mk 0 d.size d.stride).run := by
        have hlast0 : 0 < last.size := hdims last (by simp)
        exact run_merge hlast0.le hd.le hstride (by simp [NdDim.start]) rfl rfl
      rw [happend, List.dropLast_concat, List.append_assoc, dimsWalk_append, dimsWalk_append init]
      simp only [List.singleton_append, dimsWalk_cons, dimsWalk_nil, nest_zero, hmerge]
    · exact happend

theorem pushIterationDim_positive {dims : List NdDim} {d : NdDim} (hdims : AllPositive dims)
    (hd : 0 < d.size) : AllPositive (pushIterationDim dims d) := by
  rw [pushIterationDim]
  split_ifs
  · exact hdims
  split
  · exact List.forall_mem_singleton.2 hd
  · rename_i last hlast
    obtain ⟨init, rfl⟩ := List.getLast?_eq_some_iff.1 hlast
    rw [allPositive_append, allPositive_cons] at hdims
    split_ifs
    · rw [List.dropLast_concat, allPositive_append, allPositive_cons]
      exact ⟨hdims.1, Int.mul_pos hdims.2.1 hd, hdims.2.2⟩
    · rw [allPositive_append, allPositive_append, allPositive_cons, allPositive_cons]
      exact ⟨⟨hdims.1, hdims.2⟩, hd, fun _ h => nomatch h⟩

theorem pushIterationDim_offset {dims : List NdDim} {d : NdDim} (hdims : ∀ x ∈ dims, x.offset = 0) :
    ∀ x ∈ pushIterationDim dims d, x.offset = 0 := by
  rw [pushIterationDim]
  split_ifs
  · exact hdims
  split
  · exact List.forall_mem_singleton.2 rfl
  · rename_i last hlast
    obtain ⟨init, rfl⟩ := List.getLast?_eq_some_iff.1 hlast
    rw [List.forall_mem_append, List.forall_mem_singleton] at hdims
    split_ifs
    · rw [List.dropLast_concat, List.forall_mem_append, List.forall_mem_singleton]
      exact hdims
    · rw [List.forall_mem_append, List.forall_mem_append, List.forall_mem_singleton,
        List.forall_mem_singleton]
      exact ⟨hdims, rfl⟩

theorem foldl_pushIterationDim_walk (dims : List NdDim) {ds : List NdDim} (hdims : AllPositive dims)
    (hoff : ∀ x ∈ dims, x.offset = 0) (hds : AllPositive ds) :
    AllPositive (ds.foldl pushIterationDim dims) ∧
      (∀ x ∈ ds.foldl pushIterationDim dims, x.offset = 0) ∧ dimsWalk (dims ++ ds) =
        (dimsWalk (ds.foldl pushIterationDim dims)).map
          ((ds.map fun d => d.offset * d.stride).sum + ·) := by
  induction ds generalizing dims with
  | nil => exact ⟨hdims, hoff, by simp⟩
  | cons d ds ih =>
    obtain ⟨hd, hds⟩ := allPositive_cons.1 hds
    obtain ⟨hpos, hoff', hwalk⟩ :=
      ih _ (pushIterationDim_positive hdims hd) (pushIterationDim_offset hoff) hds
    refine ⟨hpos, hoff', ?_⟩
    rw [List.append_cons, dimsWalk_append, pushIterationDim_walk hdims hd, map_add_nest,
      ← dimsWalk_append, hwalk, List.map_map]
    refine List.map_congr_left fun a _ => ?_
    simp only [Function.comp_apply, NdDim.start, List.map_cons, List.sum_cons]
    ring

theorem peelDim_addresses (pieces : List Nd4Pattern) {d : NdDim} (hoff : d.offset = 0) :
    streamOf (peelDim pieces d) = nest (streamOf pieces) d.run := by
  have hmove (i : ℕ) : (pieces.map fun q => { q with baseOffset := q.baseOffset + i * d.stride
      }).flatMap Nd4Pattern.addresses = (streamOf pieces).map (i * d.stride + ·) := by
    rw [streamOf, List.flatMap_map, List.map_flatMap]
    refine List.flatMap_congr fun q _ => ?_
    rw [Nd4Pattern.addresses_eq, Nd4Pattern.addresses_eq, List.map_map]
    refine List.map_congr_left fun a _ => ?_
    simp only [Function.comp_apply]
    ring
  have hrun : d.run = (List.range d.size.toNat).map fun (i : ℕ) => i * d.stride := by
    simp [NdDim.run, Lib.run, NdDim.start, hoff]
  rw [streamOf, peelDim, List.flatMap_assoc, hrun, nest, List.flatMap_map]
  exact List.flatMap_congr fun i _ => hmove i

theorem foldl_peelDim (pieces : List Nd4Pattern) {ds : List NdDim}
    (hoff : ∀ d ∈ ds, d.offset = 0) :
    streamOf (ds.foldl peelDim pieces) = nest (streamOf pieces) (dimsWalk ds) := by
  induction ds generalizing pieces with
  | nil => rw [List.foldl_nil, dimsWalk_nil, nest_zero]
  | cons d ds ih =>
    rw [List.forall_mem_cons] at hoff
    rw [List.foldl_cons, ih _ hoff.2, peelDim_addresses _ hoff.1, dimsWalk_cons, nest_assoc]

theorem dim_of_mem_peel {dim : Fin 4 → NdDim} {pieces : List Nd4Pattern} (ds : List NdDim)
    (h : ∀ q ∈ pieces, q.dim = dim) : ∀ q ∈ ds.foldl peelDim pieces, q.dim = dim := by
  induction ds generalizing pieces with
  | nil => exact h
  | cons d ds ih =>
    refine ih fun q hq => ?_
    obtain ⟨i, -, hq⟩ := List.mem_flatMap.1 hq
    obtain ⟨q, hmem, rfl⟩ := List.mem_map.1 hq
    exact h q hmem

theorem ofDims_positive {ds : List NdDim} (hpos : AllPositive ds) (base : ℤ) :
    AllPositive (Nd4Pattern.ofDims ds base).toDims.dims := by
  have hget (i : ℕ) : 0 < (ds.getD i {}).size := by
    rw [List.getD_eq_getElem?_getD]
    rcases hi : ds[i]? with _ | d
    · exact Int.one_pos
    · exact hpos d (List.mem_of_getElem? hi)
  intro d hd
  simp only [Nd4Pattern.toDims, Nd4Pattern.ofDims, List.mem_cons, List.not_mem_nil, or_false] at hd
  rcases hd with rfl | rfl | rfl | rfl
  all_goals exact hget _

theorem reduceIterationDims_addresses {p : NdPattern} {qs : List Nd4Pattern}
    (hpos : AllPositive p.dims) (h : reduceIterationDims p = some qs) :
    streamOf qs = p.addresses ∧ ∀ q ∈ qs, AllPositive q.toDims.dims := by
  unfold reduceIterationDims at h
  simp only [Option.map_eq_some_iff] at h
  obtain ⟨-, -, rfl⟩ := h
  have hdrop : AllPositive (p.dims.drop 3) := fun d hd => hpos d (List.mem_of_mem_drop hd)
  have htake : AllPositive (p.dims.take 3) := fun d hd => hpos d (List.mem_of_mem_take hd)
  obtain ⟨hiter, hoff, hwalk⟩ := foldl_pushIterationDim_walk []
    (fun _ h => nomatch h) (fun _ h => nomatch h) hdrop
  generalize (p.dims.drop 3).foldl pushIterationDim [] = dims at hiter hoff hwalk ⊢
  generalize ((p.dims.drop 3).map fun d => d.offset * d.stride).sum = sum at hwalk ⊢
  rw [List.nil_append] at hwalk
  have hhead : dimsWalk dims = nest (dimsWalk [dims.headD {}]) (dimsWalk dims.tail) := by
    cases dims with
    | nil => simp [dimsWalk_cons, NdDim.run_of_size_one, NdDim.start]
    | cons d ds => rw [dimsWalk_cons, List.headD_cons, List.tail_cons, dimsWalk_cons, dimsWalk_nil,
        nest_zero]
  constructor
  · have hlen : (p.dims.take 3 ++ [dims.headD {}]).length ≤ 4 := by
      rw [List.length_append, List.length_take, List.length_singleton]
      omega
    rw [foldl_peelDim _ fun d hd => hoff d (List.mem_of_mem_tail hd), streamOf,
      List.flatMap_singleton, ofDims_addresses hlen, map_add_nest, dimsWalk_append, nest_assoc,
      ← hhead, NdPattern.addresses_eq, ← List.take_append_drop 3 p.dims, dimsWalk_append, hwalk,
      nest_map_add, List.map_map, List.take_append_drop]
    refine List.map_congr_left fun a _ => ?_
    simp only [Function.comp_apply]
    ring
  · have hpiece : AllPositive (p.dims.take 3 ++ [dims.headD {}]) := by
      refine htake.append (List.forall_mem_singleton.2 ?_)
      cases dims with
      | nil => exact Int.one_pos
      | cons d ds => exact hiter d List.mem_cons_self
    intro q hq
    have hq4 := ofDims_positive hpiece (p.baseOffset + sum)
    have hdim := dim_of_mem_peel dims.tail (List.forall_mem_singleton.2 rfl) q hq
    rwa [Nd4Pattern.toDims, ← hdim] at hq4

/-! ## The decomposition -/

theorem decomposeDims_addresses (T : DmaTarget) {p : NdPattern} {qs : List Nd4Pattern}
    (hpos : AllPositive p.dims) (h : T.decomposeDims p = some qs) :
    streamOf qs = p.addresses := by
  unfold DmaTarget.decomposeDims at h
  simp only at h
  split_ifs at h with hlong hsq _ _ hmerged
  · obtain ⟨pieces, hpieces, h⟩ := Option.bind_eq_some_iff.1 h
    obtain ⟨hstream, hpos'⟩ := reduceIterationDims_addresses (squeezeUnitDims_positive hpos) hpieces
    rw [decomposePieces_addresses T hpos' h, hstream, squeezeUnitDims_addresses]
  · obtain ⟨pieces, hpieces, h⟩ := Option.bind_eq_some_iff.1 h
    cases hpieces
    rw [decomposePieces_addresses T
        (List.forall_mem_singleton.2 (ofDims_positive (squeezeUnitDims_positive hpos) _)) h,
      streamOf, List.flatMap_singleton, ofDims_addresses (not_lt.1 hsq), ← NdPattern.addresses_eq,
      squeezeUnitDims_addresses]
  · cases h
    rw [streamOf, List.flatMap_singleton, mergeContiguousDims_addresses,
      ofDims_addresses (not_lt.1 hlong), NdPattern.addresses_eq]
  · rw [decompose4d_addresses T (ofDims_positive hpos _) h, ofDims_addresses (not_lt.1 hlong),
      NdPattern.addresses_eq]

/-- **A decomposition emits the stream of the pattern it decomposes.** -/
theorem decomposeNdDmaPattern_addresses (T : DmaTarget) (pattern : NdDmaPattern)
    (hsizes : ∀ n ∈ pattern.sizes, 0 < n) (qs : List NdDmaPattern)
    (h : T.decomposeNdDmaPattern pattern = some qs) :
    qs.flatMap NdDmaPattern.addresses = pattern.addresses := by
  unfold DmaTarget.decomposeNdDmaPattern at h
  split_ifs at h
  obtain ⟨pieces, hpieces, rfl⟩ := Option.map_eq_some_iff.mp h
  have hpos : AllPositive pattern.dims := by
    intro d hd
    obtain ⟨⟨o, n, s⟩, hmem, rfl⟩ := List.mem_map.mp hd
    exact hsizes n (List.of_mem_zip (List.of_mem_zip hmem).2).1
  have hstream := decomposeDims_addresses T hpos hpieces
  rw [List.flatMap_map, ← NdDmaPattern.addresses_toDims, ← hstream]
  exact List.flatMap_congr fun q _ => NdPattern.addresses_toVectors q.toDims

def sampleTarget : DmaTarget := ⟨AIE2TargetModel (fun _ _ => .ShimNOCTile) [], 0, 0, 32⟩

/-- Six dimensions: a unit one, one a descriptor iterates over, and one peeled. -/
def samplePattern : NdDmaPattern where
  offsets := [1, 2, 3, 0, 5, 1]
  sizes := [2, 3, 1, 2, 3, 2]
  strides := [1, 4, 50, 100, 500, 9]

def samplePieces : List NdDmaPattern :=
  [2659, 2668].map fun base =>
    { offsets := [1, 2, 0, 0], sizes := [2, 3, 2, 3], strides := [1, 4, 100, 500],
      baseOffset := base }

theorem samplePattern_addresses :
    samplePieces.flatMap NdDmaPattern.addresses = samplePattern.addresses :=
  decomposeNdDmaPattern_addresses sampleTarget samplePattern (by decide) samplePieces (by decide)

end MlirAie.Dma
