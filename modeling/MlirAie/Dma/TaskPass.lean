import MlirAie.Dma.Task
import MlirAie.Dma.Pieces

/-!
# The executions of a task's descriptor

The executions of a descriptor repeat after one pass over its iteration dimensions, and a pass
streams the pattern. The outer dimensions the decomposition drops only repeat the pass, so its
pieces stream, one after the other, one pass of the executions of the original.

* `NdDmaPattern.exec_cyclic`, **`NdDmaPattern.exec_pass`**: the executions of a pattern;
* `iterOffset_dropRepeats`: dropping repeats keeps every iteration index;
* `PlanSpec`, **`plan_spec`**: the pieces against the executions of the original.
-/

namespace MlirAie.Dma

open MlirAie.Lib MlirAie.Bd

/-! ## Executions -/

/-- The indices of a list of dimensions. -/
def dimsCount (ds : List NdDim) : ℕ := (ds.map fun d => d.size.toNat).prod

theorem dimsCount_cons (d : NdDim) (ds : List NdDim) :
    dimsCount (d :: ds) = d.size.toNat * dimsCount ds := rfl

theorem dimsCount_pos {ds : List NdDim} (h : AllPositive ds) : 0 < dimsCount ds := by
  induction ds with
  | nil => exact Nat.one_pos
  | cons d ds ih =>
    obtain ⟨hd, hds⟩ := allPositive_cons.1 h
    exact Nat.mul_pos (Int.lt_toNat.2 hd) (ih hds)

theorem length_addressesFrom (base : ℤ) (ds : List NdDim) :
    (addressesFrom base ds).length = dimsCount ds := by
  induction ds with
  | nil => rfl
  | cons d ds ih =>
    rw [addressesFrom, List.length_flatMap]
    simp only [List.length_map, List.length_range, List.map_const', List.sum_replicate, ih,
      dimsCount_cons, smul_eq_mul]
    ring

theorem addressesFrom_getElem? (base : ℤ) (d : NdDim) (ds : List NdDim) (q : ℕ) {r : ℕ}
    (hr : r < d.size.toNat) :
    (addressesFrom base (d :: ds))[q * d.size.toNat + r]? =
      (addressesFrom base ds)[q]?.map fun a => a + (d.offset + r) * d.stride := by
  rw [addressesFrom, getElem?_flatMap_length (fun a _ => by simp) q hr]
  cases (addressesFrom base ds)[q]? with
  | none => rfl
  | some a => simp [hr]

theorem iterOffset_mod (k : ℕ) (ds : List NdDim) :
    iterOffset (k % dimsCount ds) ds = iterOffset k ds := by
  induction ds generalizing k with
  | nil => rfl
  | cons d ds ih =>
    rw [iterOffset, iterOffset, dimsCount_cons, Nat.mod_mul_right_mod, Nat.mod_mul_right_div_self, ih]

theorem map_iterOffset_range {ds : List NdDim} (h : AllPositive ds) :
    (List.range (dimsCount ds)).map (iterOffset · ds) = dimsWalk ds := by
  induction ds with
  | nil => rfl
  | cons d ds ih =>
    obtain ⟨hd, hds⟩ := allPositive_cons.1 h
    have hpos : 0 < d.size.toNat := by omega
    rw [dimsCount_cons, range_mul_flatMap, List.map_flatMap, dimsWalk_cons, ← ih hds, nest,
      List.flatMap_map]
    refine List.flatMap_congr fun j _ => ?_
    rw [NdDim.run, Lib.run, List.map_map, List.map_map]
    refine List.map_congr_left fun i hi => ?_
    have hlt : i < d.size.toNat := List.mem_range.1 hi
    simp only [Function.comp_apply, iterOffset, NdDim.start, Nat.mul_add_mod, Nat.mod_eq_of_lt hlt,
      Nat.mul_add_div hpos, Nat.div_eq_of_lt hlt, add_zero]
    ring

theorem NdDmaPattern.exec_eq (p : NdDmaPattern) (k : ℕ) :
    p.exec k = (dimsWalk (p.dims.take 3)).map (p.baseOffset + iterOffset k (p.dims.drop 3) + ·) :=
  addressesFrom_eq _ _

theorem NdDmaPattern.exec_cyclic (p : NdDmaPattern) :
    Cyclic p.exec (dimsCount (p.dims.take 3)) (dimsCount (p.dims.drop 3)) where
  length k := length_addressesFrom _ _
  mod k := by rw [NdDmaPattern.exec, iterOffset_mod, NdDmaPattern.exec]

/-- **A pass over a pattern streams the pattern.** -/
theorem NdDmaPattern.exec_pass {p : NdDmaPattern} (h : AllPositive p.dims) :
    blocks p.exec 0 (dimsCount (p.dims.drop 3)) = p.addresses := by
  have hdrop : AllPositive (p.dims.drop 3) := fun d hd => h d (List.mem_of_mem_drop hd)
  have hexec (k : ℕ) : p.exec k = ((dimsWalk (p.dims.take 3)).map
      (iterOffset k (p.dims.drop 3) + ·)).map (p.baseOffset + ·) := by
    rw [p.exec_eq, List.map_map]
    refine List.map_congr_left fun a _ => ?_
    simp only [Function.comp_apply, add_assoc]
  have hflat : (List.range (dimsCount (p.dims.drop 3))).flatMap (fun k =>
      (dimsWalk (p.dims.take 3)).map (iterOffset k (p.dims.drop 3) + ·)) =
        nest (dimsWalk (p.dims.take 3)) (dimsWalk (p.dims.drop 3)) := by
    rw [← map_iterOffset_range hdrop, nest, List.flatMap_map]
  rw [blocks, ← List.range_eq_range', NdDmaPattern.addresses, addressesFrom_eq,
    ← List.take_append_drop 3 p.dims, dimsWalk_append, List.take_append_drop, ← hflat,
    List.map_flatMap]
  exact List.flatMap_congr fun k _ => hexec k

/-! ## One pass of the original -/

@[grind =] def zeroDims (l : List (ℤ × ℤ)) : List NdDim := l.map fun d => ⟨0, d.1, d.2⟩

theorem zeroDims_append (l m : List (ℤ × ℤ)) : zeroDims (l ++ m) = zeroDims l ++ zeroDims m :=
  List.map_append

theorem NdDmaPattern.dims_of_zero_offsets {p : NdDmaPattern} {n : ℕ}
    (hoff : p.offsets = List.replicate n 0) (hn : p.sizes.length ≤ n) :
    p.dims = zeroDims (p.sizes.zip p.strides) := by
  rw [NdDmaPattern.dims, hoff, zeroDims]
  have hlen : (p.sizes.zip p.strides).length ≤ n := by
    rw [List.length_zip]
    omega
  clear hoff hn
  generalize p.sizes.zip p.strides = l at hlen
  induction l generalizing n with
  | nil => simp
  | cons d l ih =>
    cases n with
    | zero => simp at hlen
    | succ n => simpa [List.replicate_succ] using ih (by simpa using hlen)

theorem addressesFrom_append_units {ds us : List NdDim} (base : ℤ) (h : ∀ d ∈ us, d = ⟨0, 1, 0⟩) :
    addressesFrom base (ds ++ us) = addressesFrom base ds := by
  have hus : dimsWalk us = [0] := by
    induction us with
    | nil => rfl
    | cons d us ih =>
      rw [List.forall_mem_cons] at h
      rw [dimsWalk_cons, ih h.2, nest_zero, h.1]
      rfl
  rw [addressesFrom_eq, addressesFrom_eq, dimsWalk_append, hus, nest_zero]

def NdDim.Still (d : NdDim) : Prop := d.offset = 0 ∧ (d.size = 1 ∨ d.stride = 0)

theorem iterOffset_of_still {ds : List NdDim} (h : ∀ d ∈ ds, d.Still) (k : ℕ) :
    iterOffset k ds = 0 := by
  induction ds generalizing k with
  | nil => rfl
  | cons d ds ih =>
    obtain ⟨⟨hoff, hd⟩, hds⟩ := List.forall_mem_cons.1 h
    rw [iterOffset, ih hds, hoff]
    rcases hd with hd | hd
    · simp [hd, Nat.mod_one]
    · simp [hd]

theorem iterOffset_append_congr (ds : List NdDim) {es fs : List NdDim}
    (h : ∀ k, iterOffset k es = iterOffset k fs) (k : ℕ) :
    iterOffset k (ds ++ es) = iterOffset k (ds ++ fs) := by
  induction ds generalizing k with
  | nil => exact h k
  | cons d ds ih => rw [List.cons_append, List.cons_append, iterOffset, iterOffset, ih]

theorem iterOffset_append_still (ds : List NdDim) {us : List NdDim} (h : ∀ d ∈ us, d.Still)
    (k : ℕ) : iterOffset k (ds ++ us) = iterOffset k ds := by
  have hstill : ∀ k, iterOffset k us = iterOffset k [] := iterOffset_of_still h
  rw [iterOffset_append_congr ds hstill, List.append_nil]

/-- **Dropping repeats keeps every iteration index.** -/
theorem iterOffset_dropRepeats (k : ℕ) (l : List (ℤ × ℤ)) :
    iterOffset k (zeroDims (dropRepeats l).reverse) = iterOffset k (zeroDims l.reverse) := by
  induction l generalizing k with
  | nil => rfl
  | cons d l ih =>
    rw [dropRepeats]
    split_ifs with hd
    · have hleft : ∀ x ∈ zeroDims [(1, d.2)], x.Still :=
        List.forall_mem_singleton.2 ⟨rfl, .inl rfl⟩
      have hright : ∀ x ∈ zeroDims [d], x.Still := List.forall_mem_singleton.2 ⟨rfl, hd⟩
      rw [List.reverse_cons, List.reverse_cons, zeroDims_append, zeroDims_append,
        iterOffset_append_still _ hleft, iterOffset_append_still _ hright, ih]
    · rfl

theorem dropRepeats_snd (l : List (ℤ × ℤ)) : (dropRepeats l).map Prod.snd = l.map Prod.snd := by
  induction l with
  | nil => rfl
  | cons d l ih =>
    rw [dropRepeats]
    split_ifs
    · rw [List.map_cons, List.map_cons, ih]
    · rfl

theorem dropRepeats_positive {l : List (ℤ × ℤ)} (h : ∀ d ∈ l, 0 < d.1) :
    ∀ d ∈ dropRepeats l, 0 < d.1 := by
  induction l with
  | nil => exact h
  | cons d l ih =>
    rw [dropRepeats]
    split_ifs
    · rw [List.forall_mem_cons] at h
      exact List.forall_mem_cons.2 ⟨Int.one_pos, ih h.2⟩
    · exact h

theorem zeroDims_positive {l : List (ℤ × ℤ)} (h : ∀ d ∈ l, 0 < d.1) : AllPositive (zeroDims l) := by
  intro d hd
  obtain ⟨x, hx, rfl⟩ := List.mem_map.1 hd
  exact h x hx

/-- The sizes and strides of a constant descriptor, innermost first and padded. -/
def paddedDims (sizes strides : List ℤ) : List (ℤ × ℤ) :=
  sizes.reverse.zip strides.reverse ++ List.replicate (kNdDmaDims - sizes.length) (1, 0)

/-- The same, less the outer dimensions that only repeat. -/
def trimmedDims (l : List (ℤ × ℤ)) : List (ℤ × ℤ) :=
  l.take 3 ++ (dropRepeats (l.drop 3).reverse).reverse

theorem trimmedDims_snd (l : List (ℤ × ℤ)) : (trimmedDims l).map Prod.snd = l.map Prod.snd := by
  rw [trimmedDims, List.map_append, List.map_reverse, dropRepeats_snd, ← List.map_reverse,
    List.reverse_reverse, ← List.map_append, List.take_append_drop]

theorem trimmedDims_positive {l : List (ℤ × ℤ)} (h : ∀ d ∈ l, 0 < d.1) :
    ∀ d ∈ trimmedDims l, 0 < d.1 := by
  intro d hd
  rcases List.mem_append.1 hd with hd | hd
  · exact h d (List.mem_of_mem_take hd)
  · exact dropRepeats_positive (fun x hx => h x (List.mem_of_mem_drop (List.mem_reverse.1 hx))) d
      (List.mem_reverse.1 hd)

structure NdDmaPattern.Of (p : NdDmaPattern) (l : List (ℤ × ℤ)) : Prop where
  dims : p.dims = zeroDims l
  sizes : p.sizes = l.map Prod.fst
  strides : p.strides = l.map Prod.snd
  offsets : p.offsets = List.replicate l.length 0
  baseOffset : p.baseOffset = 0

theorem NdDmaPattern.of_lists {p : NdDmaPattern} {l : List (ℤ × ℤ)}
    (hsizes : p.sizes = l.map Prod.fst) (hstrides : p.strides = l.map Prod.snd)
    (hoff : p.offsets = List.replicate l.length 0) (hbase : p.baseOffset = 0) : p.Of l where
  dims := by
    have hlen : p.sizes.length ≤ l.length := by rw [hsizes, List.length_map]
    rw [NdDmaPattern.dims_of_zero_offsets hoff hlen, hsizes, hstrides,
      ← List.zip_of_prod rfl rfl]
  sizes := hsizes
  strides := hstrides
  offsets := hoff
  baseOffset := hbase

theorem getConstantIntValues_map_some (ns : List ℤ) :
    getConstantIntValues (ns.map some) = some ns := by
  induction ns with
  | nil => rfl
  | cons n ns ih => rw [List.map_cons, getConstantIntValues, ih, Option.map_some]

theorem constantPattern_of {bd : TaskBd} {sizes strides : List ℤ} {p : NdDmaPattern}
    (hs : bd.sizes = sizes.map some) (ht : bd.strides = strides.map some)
    (h : constantPattern bd = some p) : p.Of (paddedDims sizes strides) := by
  have hlen : sizes.length = strides.length := by
    have := bd.sameLength
    rwa [hs, ht, List.length_map, List.length_map] at this
  unfold constantPattern at h
  split_ifs at h
  rw [hs, ht, getConstantIntValues_map_some, getConstantIntValues_map_some, Option.bind_some,
    Option.bind_some] at h
  split_ifs at h
  cases h
  have hzip : (sizes.reverse.zip strides.reverse).length = sizes.length := by
    rw [List.length_zip, List.length_reverse, List.length_reverse, ← hlen, min_self]
  refine NdDmaPattern.of_lists ?_ ?_ ?_ rfl
  · rw [paddedDims, List.map_append, List.map_fst_zip (by simp [hlen]), List.map_replicate, resize,
      List.length_reverse]
  · rw [paddedDims, List.map_append, List.map_snd_zip (by simp [hlen]), List.map_replicate, resize,
      resize]
    have hpad : (sizes.reverse ++ List.replicate (kNdDmaDims - sizes.reverse.length) (1 : ℤ)).length -
        strides.reverse.length = kNdDmaDims - sizes.length := by
      simp only [List.length_append, List.length_reverse, List.length_replicate]
      omega
    rw [hpad]
  · simp only [resize, paddedDims, List.length_append, List.length_reverse, List.length_replicate,
      hzip]

theorem trimPass_of {p : NdDmaPattern} {l : List (ℤ × ℤ)} (h : p.Of l) :
    (trimPass p).Of (trimmedDims l) := by
  have hzip : p.sizes.zip p.strides = l := by
    rw [h.sizes, h.strides, ← List.zip_of_prod rfl rfl]
  have hlen : (trimmedDims l).length = l.length := by
    rw [← List.length_map Prod.snd, trimmedDims_snd, List.length_map]
  refine NdDmaPattern.of_lists ?_ ?_ ?_ h.baseOffset
  · rw [trimPass, hzip, trimmedDims, List.map_append, h.sizes, List.map_take]
  · rw [trimmedDims_snd]
    exact h.strides
  · rw [hlen]
    exact h.offsets

/-! ## The original and its pass -/

theorem addressesFrom_add (base c : ℤ) (ds : List NdDim) :
    addressesFrom (base + c) ds = (addressesFrom c ds).map (base + ·) := by
  rw [addressesFrom_eq, addressesFrom_eq, List.map_map]
  refine List.map_congr_left fun a _ => ?_
  simp only [Function.comp_apply, add_assoc]

theorem original_dims {bd : TaskBd} {sizes strides : List ℤ} :
    (bd.original sizes strides).dims = zeroDims (sizes.reverse.zip strides.reverse) :=
  NdDmaPattern.dims_of_zero_offsets rfl (by simp [TaskBd.original])

theorem trimmedDims_split {l : List (ℤ × ℤ)} (h : 3 ≤ l.length) :
    (trimmedDims l).take 3 = l.take 3 ∧
      (trimmedDims l).drop 3 = (dropRepeats (l.drop 3).reverse).reverse := by
  have hlen : (l.take 3).length = 3 := by rw [List.length_take, min_eq_left h]
  exact ⟨List.take_left' hlen, List.drop_left' hlen⟩

/-- **An execution of the original is one of the pass.** -/
theorem original_exec {bd : TaskBd} {sizes strides : List ℤ} {p : NdDmaPattern}
    (h : p.Of (trimmedDims (paddedDims sizes strides)))
    (hlen : sizes.length = strides.length) (k : ℕ) :
    (bd.original sizes strides).exec k = (p.exec k).map (bd.offset.getConstant.getD 0 + ·) := by
  have hunit (m : ℕ) : ∀ d ∈ zeroDims (List.replicate m (1, 0)), d = ⟨0, 1, 0⟩ := by
    intro d hd
    obtain ⟨x, hx, rfl⟩ := List.mem_map.1 hd
    rw [List.eq_of_mem_replicate hx]
  have hlong : 3 ≤ (paddedDims sizes strides).length := by
    simp only [paddedDims, kNdDmaDims, List.length_append, List.length_zip, List.length_reverse,
      List.length_replicate]
    omega
  obtain ⟨htake, hdrop⟩ := trimmedDims_split hlong
  have hinner (b : ℤ) : addressesFrom b (p.dims.take 3) =
      addressesFrom b ((bd.original sizes strides).dims.take 3) := by
    rw [h.dims, original_dims, zeroDims, ← List.map_take, htake, List.map_take, ← zeroDims,
      paddedDims, zeroDims_append, List.take_append,
      addressesFrom_append_units _ fun d hd => hunit _ d (List.mem_of_mem_take hd)]
  have houter : iterOffset k (p.dims.drop 3) =
      iterOffset k ((bd.original sizes strides).dims.drop 3) := by
    rw [h.dims, original_dims, zeroDims, ← List.map_drop, hdrop, ← zeroDims,
      iterOffset_dropRepeats, List.reverse_reverse, zeroDims, List.map_drop, ← zeroDims, paddedDims,
      zeroDims_append, List.drop_append, iterOffset_append_still]
    intro d hd
    rw [hunit _ d (List.mem_of_mem_drop hd)]
    exact ⟨rfl, .inl rfl⟩
  rw [NdDmaPattern.exec, NdDmaPattern.exec, h.baseOffset, ← hinner, ← houter, zero_add]
  exact addressesFrom_add _ _ _

/-! ## The plan -/

/-- The pieces a task's descriptor is rewritten to, against its own executions. -/
structure PlanSpec (T : DmaTarget) (original : NdDmaPattern) (base : ℤ) (N : ℕ)
    (rs : List Nd4Pattern) : Prop where
  holds : ∀ r ∈ rs, T.Holds r
  pass : blocks original.exec 0 N = (streamOf rs).map (base + ·)
  within : ∀ r ∈ rs, ∀ a ∈ r.addresses, base + a ∈ original.addresses

theorem eq_toVectors {p : NdDmaPattern} {l : List (ℤ × ℤ)} (hp : p.Of l) (h : l.length = 4) :
    p = (Nd4Pattern.ofDims p.dims p.baseOffset).toDims.toVectors ∧
      (Nd4Pattern.ofDims p.dims p.baseOffset).toDims.dims = p.dims := by
  obtain ⟨offsets, sizes, strides, baseOffset⟩ := p
  obtain ⟨hdims, hsizes, hstrides, hoff, -⟩ := hp
  simp only at hsizes hstrides hoff
  rw [hdims]
  match l, h with
  | [a, b, c, d], _ =>
    subst hsizes hstrides hoff
    exact ⟨rfl, rfl⟩

theorem prod_sizes {l : List (ℤ × ℤ)} (h : ∀ d ∈ l, 0 < d.1) :
    ((dimsCount (zeroDims l) : ℕ) : ℤ) = (l.map Prod.fst).prod := by
  induction l with
  | nil => rfl
  | cons d l ih =>
    rw [List.forall_mem_cons] at h
    rw [zeroDims, List.map_cons, dimsCount_cons, ← zeroDims, Nat.cast_mul, ih h.2, List.map_cons,
      List.prod_cons]
    congr 1
    exact Int.toNat_of_nonneg h.1.le

theorem paddedDims_positive {sizes : List ℤ} (strides : List ℤ) (h : ∀ n ∈ sizes, 0 < n) :
    ∀ d ∈ paddedDims sizes strides, 0 < d.1 := by
  intro d hd
  rcases List.mem_append.1 hd with hd | hd
  · exact h d.1 (List.mem_reverse.1 (List.of_mem_zip hd).1)
  · rw [List.eq_of_mem_replicate hd]
    exact Int.one_pos

theorem lowerable_spec {T : DmaTarget} {p : NdDmaPattern} {l : List (ℤ × ℤ)} (hp : p.Of l)
    (hpos : ∀ d ∈ l, 0 < d.1) (h : T.lowerable p = true) :
    ∃ r : Nd4Pattern, p = r.toDims.toVectors ∧ T.Holds r ∧ r.addresses = p.addresses := by
  unfold DmaTarget.lowerable at h
  simp only at h
  split_ifs at h with hlen hcontig
  · have hl : l.length = 4 := by
      rw [not_not, hp.sizes, List.length_map] at hlen
      exact hlen
    obtain ⟨hvec, hdims⟩ := eq_toVectors hp hl
    have hr : AllPositive (Nd4Pattern.ofDims p.dims p.baseOffset).toDims.dims := by
      rw [hdims, hp.dims]
      exact zeroDims_positive hpos
    refine ⟨_, hvec, DmaTarget.holds_of_contiguousAndFits hr ?_, ?_⟩
    · rw [DmaTarget.contiguousAndFits, hcontig, h]
      rfl
    · rw [Nd4Pattern.addresses, NdPattern.addresses, hdims]
      rfl
  · have hl : l.length = 4 := by
      rw [not_not, hp.sizes, List.length_map] at hlen
      exact hlen
    obtain ⟨hvec, hdims⟩ := eq_toVectors hp hl
    refine ⟨_, hvec, DmaTarget.holds_of_passes h, ?_⟩
    rw [Nd4Pattern.addresses, NdPattern.addresses, hdims]
    rfl

/-- The pieces are a pass over the trimmed pattern. -/
theorem pieces_spec {T : DmaTarget} {bd : TaskBd} {sizes strides : List ℤ}
    (hs : bd.sizes = sizes.map some) (ht : bd.strides = strides.map some)
    (hpos : ∀ n ∈ sizes, 0 < n) {plan : TaskBdDecomposition}
    (h : T.decomposeTaskBdPattern bd = some plan) (hlegal : plan.legal = false) :
    plan.pass.Of (trimmedDims (paddedDims sizes strides)) ∧ (plan.pieces ≠ [] →
      ∃ rs : List Nd4Pattern, plan.pieces = rs.map (fun r => r.toDims.toVectors) ∧
        (∀ r ∈ rs, T.Holds r) ∧ streamOf rs = plan.pass.addresses) := by
  obtain ⟨p, hp, rfl⟩ := Option.map_eq_some_iff.1 h
  have hof := constantPattern_of hs ht hp
  have htrim := trimPass_of hof
  have htpos := trimmedDims_positive (paddedDims_positive strides hpos)
  simp only at hlegal ⊢
  split_ifs at hlegal ⊢ with hlow hlowTrim
  · refine ⟨htrim, fun _ => ?_⟩
    obtain ⟨r, hvec, hr, haddr⟩ := lowerable_spec htrim htpos hlowTrim
    refine ⟨[r], ?_, List.forall_mem_singleton.2 hr, ?_⟩
    · rw [List.map_singleton, ← hvec]
    · rw [streamOf, List.flatMap_singleton, haddr]
  · have hdimsPos : AllPositive (trimPass p).dims := by
      rw [htrim.dims]
      exact zeroDims_positive htpos
    split
    · rename_i pieces hpieces
      refine ⟨htrim, fun _ => ?_⟩
      unfold DmaTarget.decomposeNdDmaPattern at hpieces
      split_ifs at hpieces
      obtain ⟨qs, hqs, rfl⟩ := Option.map_eq_some_iff.1 hpieces
      exact ⟨qs, rfl, DmaTarget.decomposeDims_holds hdimsPos hqs,
        decomposeDims_addresses T hdimsPos hqs⟩
    · exact ⟨htrim, fun hne => absurd rfl hne⟩

/-- **The pieces against the executions of the original.** -/
theorem plan_spec {T : DmaTarget} {bd : TaskBd} {sizes strides : List ℤ}
    (hs : bd.sizes = sizes.map some) (ht : bd.strides = strides.map some)
    (hpos : ∀ n ∈ sizes, 0 < n) {plan : TaskBdDecomposition}
    (h : T.decomposeTaskBdPattern bd = some plan) (hlegal : plan.legal = false)
    (hpieces : plan.pieces ≠ []) :
    ∃ L N : ℕ, ∃ rs : List Nd4Pattern, 0 < L ∧ 0 < N ∧ (N : ℤ) = iterationCount plan.pass ∧
      Cyclic (bd.original sizes strides).exec L N ∧
      plan.pieces = rs.map (fun r => r.toDims.toVectors) ∧
      PlanSpec T (bd.original sizes strides) (bd.offset.getConstant.getD 0) N rs := by
  obtain ⟨hof, hsplit⟩ := pieces_spec hs ht hpos h hlegal
  obtain ⟨rs, hrs, hholds, hstream⟩ := hsplit hpieces
  have hlen : sizes.length = strides.length := by
    have := bd.sameLength
    rwa [hs, ht, List.length_map, List.length_map] at this
  have htpos := trimmedDims_positive (paddedDims_positive strides hpos)
  have hdimsPos : AllPositive plan.pass.dims := by
    rw [hof.dims]
    exact zeroDims_positive htpos
  have horigPos : AllPositive (bd.original sizes strides).dims := by
    rw [original_dims]
    exact zeroDims_positive fun d hd => hpos d.1 (List.mem_reverse.1 (List.of_mem_zip hd).1)
  have hexec : (bd.original sizes strides).exec =
      fun k => (plan.pass.exec k).map (bd.offset.getConstant.getD 0 + ·) := by
    funext k
    exact original_exec hof hlen k
  have hpass : blocks (bd.original sizes strides).exec 0 (dimsCount (plan.pass.dims.drop 3)) =
      (streamOf rs).map (bd.offset.getConstant.getD 0 + ·) := by
    rw [hexec, hstream, ← NdDmaPattern.exec_pass hdimsPos, blocks, blocks, List.map_flatMap]
  refine ⟨dimsCount (plan.pass.dims.take 3), dimsCount (plan.pass.dims.drop 3), rs,
    dimsCount_pos fun d hd => hdimsPos d (List.mem_of_mem_take hd),
    dimsCount_pos fun d hd => hdimsPos d (List.mem_of_mem_drop hd), ?_, ?_, hrs, hholds, hpass, ?_⟩
  · rw [hof.dims, zeroDims, ← List.map_drop, ← zeroDims,
      prod_sizes fun d hd => htpos d (List.mem_of_mem_drop hd), iterationCount, hof.sizes,
      List.map_drop]
  · rw [hexec]
    exact Cyclic.map (NdDmaPattern.exec_cyclic _) _
  · intro r hr a ha
    have hmem : bd.offset.getConstant.getD 0 + a ∈
        (streamOf rs).map (bd.offset.getConstant.getD 0 + ·) :=
      List.mem_map.2 ⟨a, List.mem_flatMap.2 ⟨r, hr, ha⟩, rfl⟩
    rw [← hpass] at hmem
    obtain ⟨k, -, hk⟩ := List.mem_flatMap.1 hmem
    rw [← NdDmaPattern.exec_pass horigPos]
    have hcyc := NdDmaPattern.exec_cyclic (bd.original sizes strides)
    rw [← hcyc.mod k] at hk
    have hlt : k % dimsCount ((bd.original sizes strides).dims.drop 3) <
        dimsCount ((bd.original sizes strides).dims.drop 3) :=
      Nat.mod_lt _ (dimsCount_pos fun d hd => horigPos d (List.mem_of_mem_drop hd))
    exact List.mem_flatMap.2 ⟨_, List.mem_range'_1.2 ⟨Nat.zero_le _, by omega⟩, hk⟩

end MlirAie.Dma
