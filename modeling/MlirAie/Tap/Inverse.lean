import MlirAie.Tap.Coalesce

/-!
# The inverse of an access pattern

* `inverse`: the walk that puts a stream back in row-major order;
* `gather`: the stream of a tensor;
* **`inverse_iff`**: there is an inverse exactly for the walks that visit every element once, and it
  undoes them.
-/

namespace MlirAie.Tap

open MlirAie.Lib

/-! ## The constructor -/

def showInts (xs : List ℤ) : String := "[" ++ ", ".intercalate (xs.map toString) ++ "]"

def row_major_strides : List ℕ → List ℤ
  | [] => []
  | [_] => [1]
  | _ :: d :: dims =>
    let strides := row_major_strides (d :: dims)
    strides.headI * d :: strides

def validate_tensor_dims (dims : List ℤ) : Except PyError (List ℕ) := do
  if dims = [] then
    .error (.ValueError ("Number of tensor dimensions must be >= 1 (dimensions=" ++
      showInts dims ++ ")"))
  else do
    require (dims.all (1 ≤ ·)) ("Each tensor dimension must be >= 1 (dimensions=" ++
      showInts dims ++ ")")
    .ok (dims.map Int.toNat)

def validate_offset (offset : ℤ) (tensorDims : List ℕ) : Except PyError ℤ := do
  require (0 ≤ offset) ("Offset must be >= 0 (offset=" ++ toString offset ++ ")")
  require (offset < tensorDims.prod) ("Offset too large: " ++ toString offset ++
    ". Max value allowed for tensor: " ++ toString tensorDims.prod)
  .ok offset

def validate_and_clean_sizes_strides (sizes strides : List ℤ) :
    Except PyError (List ℕ × List ℤ) :=
  if sizes = [] then .error (.ValueError "len(sizes) must be >0")
  else if strides.length ≠ sizes.length then
    .error (.ValueError ("len(sizes) (" ++ toString sizes.length ++ ") != len(strides) (" ++
      toString strides.length ++ ")"))
  else do
    require (sizes.all (1 ≤ ·)) ("All sizes must be >= 1, but got " ++ showInts sizes)
    require (strides.all (0 ≤ ·)) ("All strides must be >= 0, but got " ++ showInts strides)
    .ok (sizes.map Int.toNat, zero_leading_unit_strides (sizes.map Int.toNat) strides)

namespace TensorAccessPattern

/-- `__init__`. -/
def construct (tensorDims : List ℤ) (offset : ℤ) (sizes strides : List ℤ) :
    Except PyError TensorAccessPattern := do
  let tensorDims ← validate_tensor_dims tensorDims
  let offset ← validate_offset offset tensorDims
  let cleaned ← validate_and_clean_sizes_strides sizes strides
  .ok ⟨tensorDims, offset, cleaned.1, cleaned.2, none⟩

def full (tensorDims : List ℕ) : Except PyError TensorAccessPattern :=
  construct (tensorDims.map Nat.cast) 0 (tensorDims.map Nat.cast) (row_major_strides tensorDims)

/-- `__repr__` of an unpadded pattern. -/
def repr (p : TensorAccessPattern) : String :=
  "TensorAccessPattern(" ++ showInts (p.tensorDims.map Nat.cast) ++ ", offset=" ++
    toString p.offset ++ ", sizes=" ++ showInts (p.sizes.map Nat.cast) ++ ", strides=" ++
    showInts p.strides ++ ")"

/-! ## The inverse -/

/-- The loop over the sorted dimensions, which it leaves with zero. -/
def covered (p : TensorAccessPattern) : ℤ → List ℕ → ℤ
  | covered, [] => covered
  | covered, i :: steps =>
    if p.strides.getD i 0 ≠ covered then 0
    else p.covered (covered * p.sizes.getD i 0) steps

def steps (p : TensorAccessPattern) : List ℕ :=
  ((List.range p.rank).filter fun i => p.sizes.getD i 0 ≠ 1).insertionSort
    fun i j => p.strides.getD j 0 ≤ p.strides.getD i 0

def inverse (p : TensorAccessPattern) : Except PyError TensorAccessPattern :=
  if p.padding.isSome then .error (.ValueError "a padded pattern has no inverse")
  else if p.offset ≠ 0 ∨ p.covered 1 p.steps.reverse ≠ p.tensorDims.prod then
    .error (.ValueError (p.repr ++
      " does not visit every element exactly once, so it has no inverse"))
  else if p.steps = [] then full p.tensorDims
  else .ok (raw p.tensorDims 0 (p.steps.map fun i => p.sizes.getD i 0)
    (p.steps.map fun i => (row_major_strides p.sizes).getD i 0) none)

/-- `gather` of an unpadded pattern, on the elements of a tensor in row-major order. -/
def gather {α : Type*} (p : TensorAccessPattern) (tensor : List α) : Except PyError (List α) :=
  if p.walk.any (p.tensorDims.prod ≤ ·) then
    .error (.ValueError (p.repr ++ " reaches element " ++ toString (p.walk.foldl max 0) ++
      " of a " ++ toString p.tensorDims.prod ++ "-element tensor"))
  else if tensor.length ≠ p.tensorDims.prod then
    .error (.ValueError ("tensor has " ++ toString tensor.length ++
      " elements; the pattern walks a tensor of " ++ toString p.tensorDims.prod))
  else .ok (p.walk.filterMap fun i => tensor[(max i 0).toNat]?)

end TensorAccessPattern

/-! ## Row-major strides -/

theorem row_major_strides_cons (n : ℕ) (dims : List ℕ) :
    row_major_strides (n :: dims) = (dims.prod : ℤ) :: row_major_strides dims := by
  induction dims generalizing n with
  | nil => simp [row_major_strides]
  | cons d dims ih =>
    rw [row_major_strides, ih d]
    simp [mul_comm]

theorem rowMajor_row_major_strides (dims : List ℕ) : RowMajor dims (row_major_strides dims) := by
  induction dims with
  | nil => trivial
  | cons n dims ih =>
    rw [row_major_strides_cons]
    exact ⟨fun _ => rfl, fun _ => ih⟩

theorem length_row_major_strides (dims : List ℕ) :
    (row_major_strides dims).length = dims.length := by
  induction dims with
  | nil => rfl
  | cons n dims ih => rw [row_major_strides_cons, List.length_cons, List.length_cons, ih]

theorem row_major_strides_nonneg {dims : List ℕ} {s : ℤ} (h : s ∈ row_major_strides dims) :
    0 ≤ s := by
  induction dims with
  | nil => cases h
  | cons n dims ih =>
    rw [row_major_strides_cons] at h
    rcases List.mem_cons.1 h with rfl | h
    · exact Int.natCast_nonneg _
    · exact ih h

namespace TensorAccessPattern

/-- What the constructor checks, where the stride of a unit dimension may be any. -/
structure Valid (p : TensorAccessPattern) : Prop extends p.Checked where
  tensorDims_ne_nil : p.tensorDims ≠ []
  one_le_tensorDims : ∀ d ∈ p.tensorDims, 1 ≤ d
  stride_nonneg : ∀ d ∈ p.transformation_dims, d.1 ≠ 1 → 0 ≤ d.2

theorem full_eq {tensorDims : List ℕ} (hne : tensorDims ≠ []) (hpos : ∀ d ∈ tensorDims, 1 ≤ d) :
    full tensorDims = .ok (raw tensorDims 0 tensorDims (row_major_strides tensorDims) none) := by
  have htoNat : (tensorDims.map (Nat.cast : ℕ → ℤ)).map Int.toNat = tensorDims := by
    rw [List.map_map]
    exact (List.map_congr_left fun n _ => Int.toNat_natCast n).trans (List.map_id _)
  have hone : ((tensorDims.map (Nat.cast : ℕ → ℤ)).all (1 ≤ ·)) = true := by
    rw [List.all_map, List.all_eq_true]
    exact fun d hd => decide_eq_true (by exact_mod_cast hpos d hd)
  have hnonneg : ((row_major_strides tensorDims).all (0 ≤ ·)) = true :=
    List.all_eq_true.2 fun s hs => decide_eq_true (row_major_strides_nonneg hs)
  have hprod : (0 : ℤ) < tensorDims.prod := by
    exact_mod_cast List.prod_pos fun n hn => hpos n hn
  have hdims : validate_tensor_dims (tensorDims.map Nat.cast) = .ok tensorDims := by
    rw [validate_tensor_dims, if_neg (by simpa using hne), hone, htoNat]
    rfl
  have hoffset : validate_offset 0 tensorDims = .ok 0 := by
    rw [validate_offset, decide_eq_true hprod]
    rfl
  have hsizes : validate_and_clean_sizes_strides (tensorDims.map Nat.cast)
      (row_major_strides tensorDims) =
        .ok (tensorDims, zero_leading_unit_strides tensorDims (row_major_strides tensorDims)) := by
    rw [validate_and_clean_sizes_strides, if_neg (by simpa using hne),
      if_neg (by simp [length_row_major_strides]), hone, hnonneg, htoNat]
    rfl
  rw [full, construct, hdims]
  refine bind_eq_ok.2 ⟨_, rfl, bind_eq_ok.2 ⟨_, hoffset, bind_eq_ok.2 ⟨_, hsizes, rfl⟩⟩⟩

/-! ## The dimensions that step -/

section Steps

variable {p : TensorAccessPattern} {R : Type*} [CommRing R]

def dimsWith (p : TensorAccessPattern) (f : ℕ → R) (is : List ℕ) : List (ℕ × R) :=
  is.map fun i => (p.sizes.getD i 0, f i)

theorem Checked.dimsWith_strides (h : p.Checked) :
    p.dimsWith (fun i => p.strides.getD i 0) (List.range p.rank) = p.transformation_dims := by
  refine List.ext_getElem ?_ fun i hi hi' => ?_
  · rw [dimsWith, List.length_map, List.length_range, h.length_transformation_dims]
  · have hi : i < p.sizes.length := by simpa [dimsWith, rank] using hi
    simp only [dimsWith, List.getElem_map, List.getElem_range, transformation_dims,
      List.getElem_zip]
    rw [List.getD_eq_getElem _ _ hi, List.getD_eq_getElem _ _ (h.length_eq ▸ hi)]

theorem steps_perm (p : TensorAccessPattern) :
    p.steps.Perm ((List.range p.rank).filter fun i => p.sizes.getD i 0 ≠ 1) :=
  List.perm_insertionSort _ _

/-- **The dimensions that step** have the same places, in another order. -/
theorem visits_steps (p : TensorAccessPattern) (f : ℕ → R) :
    (visits (p.dimsWith f p.steps)).Perm (visits (p.dimsWith f (List.range p.rank))) := by
  rw [← visits_filter_unit (p.dimsWith f (List.range p.rank)), dimsWith, dimsWith, List.filter_map]
  exact visits_perm ((steps_perm p).map _)

def ascending (p : TensorAccessPattern) : List (ℕ × ℤ) :=
  p.dimsWith (fun i => p.strides.getD i 0) p.steps.reverse

theorem ascending_eq (p : TensorAccessPattern) :
    p.ascending = (p.dimsWith (fun i => p.strides.getD i 0) p.steps).reverse := by
  rw [ascending, dimsWith, List.map_reverse]
  rfl

theorem Checked.two_le_ascending (h : p.Checked) : ∀ d ∈ p.ascending, 2 ≤ d.1 := by
  intro d hd
  obtain ⟨i, hi, rfl⟩ := List.mem_map.1 hd
  obtain ⟨hi, hne⟩ := List.mem_filter.1 ((steps_perm p).mem_iff.1 (List.mem_reverse.1 hi))
  have hi : i < p.sizes.length := List.mem_range.1 hi
  rw [List.getD_eq_getElem _ _ hi, decide_eq_true_eq] at hne
  have := h.one_le _ (List.getElem_mem hi)
  simp only [List.getD_eq_getElem _ _ hi]
  omega

theorem Valid.ascending_nonneg (h : p.Valid) : ∀ d ∈ p.ascending, 0 ≤ d.2 := by
  intro d hd
  have hne : d.1 ≠ 1 := by
    have := h.two_le_ascending d hd
    omega
  refine h.stride_nonneg d ?_ hne
  rw [← h.dimsWith_strides]
  rw [ascending, dimsWith, List.map_reverse, List.mem_reverse] at hd
  obtain ⟨i, hi, rfl⟩ := List.mem_map.1 hd
  exact List.mem_map.2 ⟨i, (List.mem_filter.1 ((steps_perm p).mem_iff.1 hi)).1, rfl⟩

theorem pairwise_ascending (p : TensorAccessPattern) :
    p.ascending.Pairwise fun d e => d.2 ≤ e.2 := by
  have : Std.Total fun i j => p.strides.getD j 0 ≤ p.strides.getD i 0 := ⟨fun _ _ => le_total _ _⟩
  have : IsTrans ℕ fun i j => p.strides.getD j 0 ≤ p.strides.getD i 0 :=
    ⟨fun _ _ _ h h' => h'.trans h⟩
  rw [ascending, dimsWith, List.map_reverse, List.pairwise_reverse, List.pairwise_map]
  exact List.pairwise_insertionSort _ _

/-- The loop ends with the reach of the dimensions, or with zero. -/
theorem covered_eq (p : TensorAccessPattern) (c : ℤ) (is : List ℕ) :
    (Continues c (p.dimsWith (fun i => p.strides.getD i 0) is) →
      p.covered c is = c * extent (p.dimsWith (fun i => p.strides.getD i 0) is)) ∧
    (¬Continues c (p.dimsWith (fun i => p.strides.getD i 0) is) → p.covered c is = 0) := by
  induction is generalizing c with
  | nil => exact ⟨fun _ => by simp [covered, dimsWith, extent], fun h => (h trivial).elim⟩
  | cons i is ih =>
    rw [covered, dimsWith, List.map_cons, Continues, extent_cons]
    by_cases hi : p.strides.getD i 0 = c
    · rw [if_neg (not_not.2 hi), and_iff_right hi]
      refine ⟨fun h => ((ih _).1 h).trans ?_, (ih _).2⟩
      rw [Nat.cast_mul, ← mul_assoc]
      rfl
    · rw [if_pos hi]
      exact ⟨fun h => (hi h.1).elim, fun _ => rfl⟩

theorem visits_ascending (h : p.Checked) :
    (visits p.ascending).Perm (visits p.transformation_dims) := by
  rw [← h.dimsWith_strides, ascending_eq]
  exact (visits_perm (List.reverse_perm _)).trans (visits_steps p _)

/-- **The loop recognises** the walks that visit every element once. -/
theorem Valid.accepted_iff (h : p.Valid) :
    (p.offset = 0 ∧ p.covered 1 p.steps.reverse = p.tensorDims.prod) ↔
      p.walk.Perm (run 0 1 p.tensorDims.prod) := by
  have hN : 0 < p.tensorDims.prod := List.prod_pos fun d hd => h.one_le_tensorDims d hd
  have hextent : extent p.ascending = extent p.transformation_dims := by
    rw [← length_visits, ← length_visits, (visits_ascending h.toChecked).length_eq]
  have hcovers := perm_run_iff one_pos h.two_le_ascending h.ascending_nonneg
    (pairwise_ascending p)
  obtain ⟨hreach, hstop⟩ := covered_eq p 1 p.steps.reverse
  rw [h.walk_eq]
  constructor
  · rintro ⟨hoffset, hcovered⟩
    have hcontinues : Continues 1 p.ascending := by
      by_contra hne
      rw [hstop hne] at hcovered
      exact hN.ne (by exact_mod_cast hcovered)
    have hN' : extent p.ascending = p.tensorDims.prod := by
      rw [hreach hcontinues, one_mul] at hcovered
      exact_mod_cast hcovered
    rw [hoffset]
    simp only [zero_add, List.map_id']
    rw [← hN']
    exact (visits_ascending h.toChecked).symm.trans (hcovers.2 hcontinues)
  · intro hperm
    have hdims : ∀ d ∈ p.transformation_dims, 0 < d.1 := fun d hd =>
      h.one_le_transformation_dims d hd
    have hnonneg {v : ℤ} (hv : v ∈ visits p.transformation_dims) : 0 ≤ v := by
      exact (eq_zero_or_le_of_mem_visits le_rfl h.ascending_nonneg
        ((visits_ascending h.toChecked).mem_iff.2 hv)).elim (·.ge) id
    have hoffset : p.offset = 0 := by
      refine le_antisymm ?_ ?_
      · obtain ⟨v, hv, heq⟩ := List.mem_map.1
          (hperm.mem_iff.2 (mem_run.2 ⟨0, hN, by simp⟩ : (0 : ℤ) ∈ run 0 1 p.tensorDims.prod))
        have := hnonneg hv
        omega
      · obtain ⟨i, -, hi⟩ := mem_run.1
          (hperm.mem_iff.1 (List.mem_map.2 ⟨0, zero_mem_visits hdims, rfl⟩))
        omega
    rw [hoffset] at hperm
    simp only [zero_add, List.map_id'] at hperm
    have hN' : extent p.ascending = p.tensorDims.prod := by
      rw [hextent, ← length_visits, hperm.length_eq, length_run]
    have hcontinues := hcovers.1 (hN' ▸ (visits_ascending h.toChecked).trans hperm)
    exact ⟨hoffset, by rw [hreach hcontinues, one_mul]; exact_mod_cast hN'⟩

/-! ## Positions and elements -/

/-- The positions of a pattern's stream with the elements they hold, by the strides of both. -/
def places (p : TensorAccessPattern) (is : List ℕ) : List (ℤ × ℤ) :=
  visits (p.dimsWith (fun i => ((row_major_strides p.sizes).getD i 0, p.strides.getD i 0)) is)

theorem map_fst_places (p : TensorAccessPattern) (is : List ℕ) :
    (p.places is).map Prod.fst =
      visits (p.dimsWith (fun i => (row_major_strides p.sizes).getD i 0) is) := by
  rw [places, ← RingHom.coe_fst, ← visits_map, dimsWith, dimsWith, List.map_map]
  rfl

theorem map_snd_places (p : TensorAccessPattern) (is : List ℕ) :
    (p.places is).map Prod.snd = visits (p.dimsWith (fun i => p.strides.getD i 0) is) := by
  rw [places, ← RingHom.coe_snd, ← visits_map, dimsWith, dimsWith, List.map_map]
  rfl

theorem mem_places_iff {l : List (ℤ × ℤ)} {n : ℕ} (h : l.map Prod.fst = run 0 1 n) {k : ℕ}
    {v : ℤ} : ((k : ℤ), v) ∈ l ↔ (l.map Prod.snd)[k]? = some v := by
  have hfst {i : ℕ} {d : ℤ × ℤ} (hd : l[i]? = some d) : d.1 = i := by
    have hmap : (l.map Prod.fst)[i]? = some d.1 := by rw [List.getElem?_map, hd]; rfl
    rw [h] at hmap
    obtain ⟨hi, heq⟩ := List.getElem?_eq_some_iff.1 hmap
    rw [← heq]
    simp [run]
  rw [List.getElem?_map, Option.map_eq_some_iff]
  constructor
  · intro hmem
    obtain ⟨i, hi⟩ := List.mem_iff_getElem?.1 hmem
    obtain rfl : k = i := Int.ofNat_inj.1 (hfst hi)
    exact ⟨_, hi, rfl⟩
  · rintro ⟨d, hd, rfl⟩
    rw [← hfst hd]
    exact List.mem_of_getElem? hd

theorem dimsWith_range (p : TensorAccessPattern) {ts : List ℤ} (h : p.sizes.length = ts.length) :
    p.dimsWith (fun i => ts.getD i 0) (List.range p.rank) = p.sizes.zip ts := by
  refine List.ext_getElem ?_ fun i hi hi' => ?_
  · rw [dimsWith, List.length_map, List.length_range, List.length_zip, ← h, min_self]
    rfl
  · have hi : i < p.sizes.length := by simpa [dimsWith, rank] using hi
    simp only [dimsWith, List.getElem_map, List.getElem_range, List.getElem_zip]
    rw [List.getD_eq_getElem _ _ hi, List.getD_eq_getElem _ _ (h ▸ hi)]

theorem positions_eq_run (p : TensorAccessPattern) :
    (p.places (List.range p.rank)).map Prod.fst = run 0 1 p.sizes.prod := by
  have hlen := (length_row_major_strides p.sizes).symm
  rw [map_fst_places, dimsWith_range p hlen, visits, List.map_fst_zip hlen.le,
    List.map_snd_zip hlen.ge, offsets_eq_run (rowMajor_row_major_strides p.sizes)]

theorem Checked.elements_eq_walk (h : p.Checked) (hoffset : p.offset = 0) :
    (p.places (List.range p.rank)).map Prod.snd = p.walk := by
  rw [map_snd_places, h.dimsWith_strides, h.walk_eq, hoffset]
  simp

theorem Valid.inverse_eq (h : p.Valid) (hpadding : p.padding = none) {q : TensorAccessPattern} :
    p.inverse = .ok q → q.tensorDims = p.tensorDims ∧
      q.walk = (p.places p.steps).map Prod.fst := by
  intro hq
  rw [inverse, if_neg (by simp [hpadding])] at hq
  split at hq
  · cases hq
  · rename_i haccepted
    push Not at haccepted
    split at hq
    · rename_i hsteps
      rw [full_eq h.tensorDims_ne_nil h.one_le_tensorDims] at hq
      cases hq
      have hN : p.tensorDims.prod = 1 := by
        have hcovered : (1 : ℤ) = (p.tensorDims.prod : ℕ) := by
          rw [← haccepted.2, hsteps]
          rfl
        exact Int.ofNat_inj.1 hcovered.symm
      refine ⟨rfl, ?_⟩
      rw [walk_raw_eq, offsets_eq_run (rowMajor_row_major_strides _), hN, map_fst_places, hsteps]
      simp [dimsWith, visits, offsets]
    · cases hq
      refine ⟨rfl, ?_⟩
      rw [walk_raw_eq, map_fst_places, visits, dimsWith, List.map_map, List.map_map]
      simp [Function.comp_def]

theorem Valid.inverse_isOk_iff (h : p.Valid) (hpadding : p.padding = none) :
    (∃ q, p.inverse = .ok q) ↔ p.walk.Perm (run 0 1 p.tensorDims.prod) := by
  rw [← h.accepted_iff, inverse, if_neg (by simp [hpadding])]
  split
  · rename_i hrefused
    refine iff_of_false (fun ⟨_, hq⟩ => nomatch hq) fun ⟨hoffset, hcovered⟩ => ?_
    exact hrefused.elim (fun hne => hne hoffset) fun hne => hne hcovered
  · rename_i haccepted
    push Not at haccepted
    refine iff_of_true ?_ haccepted
    split
    · exact ⟨_, full_eq h.tensorDims_ne_nil h.one_le_tensorDims⟩
    · exact ⟨_, rfl⟩

end Steps

/-! ## Undoing a walk -/

theorem run_zero_one (n : ℕ) : run 0 1 n = (List.range n).map (Nat.cast : ℕ → ℤ) := by
  simp [run]

theorem getElem?_filterMap_of_isSome {α β : Type*} {f : α → Option β} {l : List α}
    (h : ∀ a ∈ l, (f a).isSome) (k : ℕ) : (l.filterMap f)[k]? = l[k]?.bind f := by
  induction l generalizing k with
  | nil => rfl
  | cons a l ih =>
    rw [List.forall_mem_cons] at h
    obtain ⟨b, hb⟩ := Option.isSome_iff_exists.1 h.1
    rw [List.filterMap_cons_some hb]
    cases k with
    | zero => simp [hb]
    | succ k => simpa using ih h.2 k

/-- The stream of a walk inside the tensor. -/
theorem gather_eq {α : Type*} {p : TensorAccessPattern} {tensor : List α}
    (h : ∀ e ∈ p.walk, 0 ≤ e ∧ e < p.tensorDims.prod)
    (hlength : tensor.length = p.tensorDims.prod) :
    ∃ s, p.gather tensor = .ok s ∧ ∀ k : ℕ, s[k]? = p.walk[k]?.bind fun e => tensor[e.toNat]? := by
  have hinside : p.walk.any (p.tensorDims.prod ≤ ·) = false := by
    rw [List.any_eq_false]
    intro e he
    have := h e he
    simp only [decide_eq_true_eq]
    omega
  have hsome : ∀ e ∈ p.walk, (tensor[(max e 0).toNat]?).isSome := by
    intro e he
    have := h e he
    rw [Option.isSome_iff_exists]
    exact ⟨_, List.getElem?_eq_getElem (by omega)⟩
  refine ⟨_, by rw [gather, hinside, if_neg (by simp), if_neg (not_not.2 hlength)], fun k => ?_⟩
  rw [getElem?_filterMap_of_isSome hsome]
  cases hk : p.walk[k]? with
  | none => rfl
  | some e =>
    have := h e (List.mem_of_getElem? hk)
    rw [Option.bind_some, Option.bind_some, max_eq_left this.1]

/-- **A walk of the positions** of another one undoes it. -/
theorem gather_gather {α : Type*} {p q : TensorAccessPattern}
    (hp : p.walk.Perm (run 0 1 p.tensorDims.prod)) (hq : q.walk.Perm (run 0 1 p.tensorDims.prod))
    (hdims : q.tensorDims = p.tensorDims)
    (h : ∀ k e : ℕ, q.walk[e]? = some (k : ℤ) → p.walk[k]? = some (e : ℤ)) (x : List α)
    (hx : x.length = p.tensorDims.prod) : ∃ s, p.gather x = .ok s ∧ q.gather s = .ok x := by
  have hinside {w : List ℤ} (hw : w.Perm (run 0 1 p.tensorDims.prod)) {e : ℤ} (he : e ∈ w) :
      0 ≤ e ∧ e < p.tensorDims.prod := by
    obtain ⟨i, hi, rfl⟩ := mem_run.1 (hw.mem_iff.1 he)
    omega
  have hplength : p.walk.length = p.tensorDims.prod := by rw [hp.length_eq, length_run]
  have hqlength : q.walk.length = p.tensorDims.prod := by rw [hq.length_eq, length_run]
  obtain ⟨s, hs, hsget⟩ := gather_eq (fun e he => hinside hp he) hx
  have hslength : s.length = p.tensorDims.prod := by
    have hget (k : ℕ) : s[k]? = none ↔ p.tensorDims.prod ≤ k := by
      rw [hsget k, ← hplength, ← List.getElem?_eq_none_iff]
      cases hk : p.walk[k]? with
      | none => simp
      | some e =>
        have := hinside hp (List.mem_of_getElem? hk)
        simp only [Option.bind_some, List.getElem?_eq_none_iff, reduceCtorEq, iff_false]
        omega
    refine le_antisymm ?_ ?_
    · exact List.getElem?_eq_none_iff.1 ((hget _).2 le_rfl)
    · exact (hget _).1 (List.getElem?_eq_none le_rfl)
  obtain ⟨t, ht, htget⟩ := @gather_eq _ q s (fun e he => hdims ▸ hinside hq he)
    (hdims ▸ hslength)
  refine ⟨s, hs, ht.trans (congrArg Except.ok (List.ext_getElem? fun e => ?_))⟩
  rw [htget e]
  cases he : q.walk[e]? with
  | none =>
    have := List.getElem?_eq_none_iff.1 he
    rw [List.getElem?_eq_none (by omega), Option.bind_none]
  | some k =>
    have hk := hinside hq (List.mem_of_getElem? he)
    obtain ⟨k, rfl⟩ := Int.eq_ofNat_of_zero_le hk.1
    rw [Option.bind_some, Int.toNat_natCast, hsget, h k e he, Option.bind_some, Int.toNat_natCast]

/-- **The walk of the inverse** has the position of every element. -/
theorem Valid.inverse_walk {p q : TensorAccessPattern} (h : p.Valid) (hpadding : p.padding = none)
    (hq : p.inverse = .ok q) : q.tensorDims = p.tensorDims ∧
      q.walk.Perm (run 0 1 p.tensorDims.prod) ∧
      ∀ k e : ℕ, p.walk[k]? = some (e : ℤ) ↔ q.walk[e]? = some (k : ℤ) := by
  have hperm := (h.inverse_isOk_iff hpadding).1 ⟨q, hq⟩
  obtain ⟨hoffset, hcovered⟩ := h.accepted_iff.2 hperm
  obtain ⟨hdims, hwalk⟩ := h.inverse_eq hpadding hq
  have hplaces : (p.places p.steps).Perm (p.places (List.range p.rank)) := visits_steps p _
  have hlength : p.sizes.prod = p.tensorDims.prod := by
    have hpositions := congrArg List.length (positions_eq_run p)
    rw [List.length_map, length_run] at hpositions
    rw [← hpositions, ← List.length_map Prod.snd, h.elements_eq_walk hoffset, hperm.length_eq,
      length_run]
  have hpositions := positions_eq_run p
  have helements := h.elements_eq_walk hoffset
  rw [hlength] at hpositions
  have hinorder : (p.places p.steps).map Prod.snd = run 0 1 p.tensorDims.prod := by
    obtain ⟨hreach, hstop⟩ := covered_eq p 1 p.steps.reverse
    have hN : 0 < p.tensorDims.prod := List.prod_pos fun d hd => h.one_le_tensorDims d hd
    have hcontinues : Continues 1 p.ascending := by
      by_contra hne
      rw [hstop hne] at hcovered
      exact hN.ne (by exact_mod_cast hcovered)
    rw [hreach hcontinues, one_mul] at hcovered
    have hextent : extent p.ascending = p.tensorDims.prod := Int.ofNat_inj.1 hcovered
    rw [map_snd_places, ← List.reverse_reverse (p.dimsWith _ p.steps), ← ascending_eq,
      hcontinues.visits_reverse, hextent]
  refine ⟨hdims, ?_, fun k e => ?_⟩
  · rw [hwalk, ← hpositions]
    exact hplaces.map _
  · have hswap : ((p.places p.steps).map Prod.swap).map Prod.fst = run 0 1 p.tensorDims.prod := by
      rw [← hinorder, List.map_map]
      rfl
    have hswap' : ((p.places p.steps).map Prod.swap).map Prod.snd = q.walk := by
      rw [hwalk, List.map_map]
      rfl
    rw [← helements, ← mem_places_iff hpositions, ← hplaces.mem_iff, ← hswap',
      ← mem_places_iff hswap]
    exact (List.mem_map_of_injective Prod.swap_injective).symm

/-- **There is an inverse** exactly for the walks that visit every element once, and each undoes the
other. -/
theorem inverse_iff {α : Type*} (p : TensorAccessPattern) (hp : p.Valid)
    (hpadding : p.padding = none) :
    ((∃ q, p.inverse = .ok q) ↔
        p.walk.Perm ((List.range p.tensorDims.prod).map (Nat.cast : ℕ → ℤ))) ∧
      ∀ q, p.inverse = .ok q →
        (∀ x : List α, x.length = p.tensorDims.prod →
          ∃ b, p.gather x = .ok b ∧ q.gather b = .ok x) ∧
        ∀ b : List α, b.length = p.tensorDims.prod →
          ∃ x, q.gather b = .ok x ∧ p.gather x = .ok b := by
  rw [← run_zero_one]
  refine ⟨hp.inverse_isOk_iff hpadding, fun q hq => ?_⟩
  have hperm := (hp.inverse_isOk_iff hpadding).1 ⟨q, hq⟩
  obtain ⟨hdims, hqperm, hiff⟩ := hp.inverse_walk hpadding hq
  refine ⟨gather_gather hperm hqperm hdims fun k e => (hiff k e).2, fun b hb => ?_⟩
  exact gather_gather (hdims ▸ hqperm) (hdims ▸ hperm) hdims.symm (fun k e => (hiff e k).1) b
    (hdims ▸ hb)

def byColumns : TensorAccessPattern := ⟨[2, 3], 0, [3, 2], [1, 3], none⟩

theorem byColumns_valid : byColumns.Valid :=
  ⟨⟨by decide, by decide, by decide⟩, by decide, by decide, by decide⟩

theorem byColumns_inverse_iff :
    ((∃ q, byColumns.inverse = .ok q) ↔
        byColumns.walk.Perm ((List.range byColumns.tensorDims.prod).map (Nat.cast : ℕ → ℤ))) ∧
      ∀ q, byColumns.inverse = .ok q →
        (∀ x : List ℕ, x.length = byColumns.tensorDims.prod →
          ∃ b, byColumns.gather x = .ok b ∧ q.gather b = .ok x) ∧
        ∀ b : List ℕ, b.length = byColumns.tensorDims.prod →
          ∃ x, q.gather b = .ok x ∧ byColumns.gather x = .ok b :=
  inverse_iff byColumns byColumns_valid rfl

end TensorAccessPattern

end MlirAie.Tap
