import MlirAie.Tap.Index

/-!
# Coalescing and comparing access patterns

* `normal`: the dimensions without units, merged;
* **`normal_eq_iff`**: they determine the walk, and are determined by it;
* **`eq_iff_walk`**: equal patterns are those of one tensor with one walk.
-/

namespace MlirAie.Tap

open MlirAie.Lib

/-! ## The operations -/

def require (cond : Bool) (message : String) : Except PyError Unit :=
  if cond then .ok () else .error (.ValueError message)

namespace TensorAccessPattern

def transformation_dims (p : TensorAccessPattern) : List (ℕ × ℤ) := p.sizes.zip p.strides

/-- `_axis`. -/
def axis (p : TensorAccessPattern) (dim : ℤ) : Except PyError ℕ :=
  if -p.rank ≤ dim ∧ dim < p.rank then .ok (dim % p.rank).toNat
  else .error (.IndexError ("dimension " ++ toString dim ++ " out of range for rank " ++
    toString p.rank))

def merge (p : TensorAccessPattern) (dim : ℤ) : Except PyError TensorAccessPattern := do
  let dim' ← p.axis dim
  if p.rank ≤ dim' + 1 then
    .error (.ValueError ("dimension " ++ toString dim' ++ " has no successor to merge with"))
  else
    let n0 := p.sizes.getD dim' 0
    let s0 := p.strides.getD dim' 0
    let n1 := p.sizes.getD (dim' + 1) 0
    let s1 := p.strides.getD (dim' + 1) 0
    if n0 ≠ 1 ∧ n1 ≠ 1 ∧ s0 ≠ n1 * s1 then
      .error (.ValueError ("dimensions " ++ toString dim' ++ " and " ++ toString (dim' + 1) ++
        " are not contiguous (stride " ++ toString s0 ++ " != " ++ toString n1 ++ " * " ++
        toString s1 ++ "); cannot merge"))
    else
      p.withWalk p.offset (p.sizes.take dim' ++ ([n0 * n1] ++ p.sizes.drop (dim' + 2)))
        (p.strides.take dim' ++ ([if n1 = 1 then s0 else s1] ++ p.strides.drop (dim' + 2)))

/-- `_drop_unit_dims`. -/
def dropUnitDims (p : TensorAccessPattern) : Except PyError TensorAccessPattern :=
  let keep := p.transformation_dims.filter fun d => d.1 ≠ 1
  let keep := if keep.isEmpty then p.transformation_dims.drop (p.rank - 1) else keep
  p.withWalk p.offset (keep.map Prod.fst) (keep.map Prod.snd)

/-- The loop of `coalesce`. -/
def coalesceFrom : ℕ → TensorAccessPattern → ℕ → Except PyError TensorAccessPattern
  | 0, out, _ => .ok out
  | fuel + 1, out, i =>
    if i + 1 < out.rank then
      if out.strides.getD i 0 = out.sizes.getD (i + 1) 0 * out.strides.getD (i + 1) 0 then do
        let out ← out.merge i
        coalesceFrom fuel out i
      else coalesceFrom fuel out (i + 1)
    else .ok out

def coalesce (p : TensorAccessPattern) : Except PyError TensorAccessPattern := do
  let out ← p.dropUnitDims
  coalesceFrom out.rank out 0

/-! ## Comparing -/

/-- The tensor, the offset, and the dimensions, with their padding if there is any. -/
structure Key where
  tensorDims : List ℕ
  offset : ℤ
  dims : List (ℕ × ℤ)
  padding : Option (List (ℕ × ℕ))
  deriving DecidableEq

/-- `_key`: the dimensions of a padded pattern are kept with their padding. -/
def key (p : TensorAccessPattern) : Except PyError Key := do
  if p.padding.isSome then .ok ⟨p.tensorDims, p.offset, p.transformation_dims, p.padding⟩
  else
    let c ← p.coalesce
    .ok ⟨p.tensorDims, p.offset, c.transformation_dims.filter fun d => d.1 ≠ 1, none⟩

/-- `__eq__`. -/
def eq (p q : TensorAccessPattern) : Except PyError Bool := do
  let k ← p.key
  let k' ← q.key
  .ok (decide (k = k'))

/-- `__hash__`, from the hash of a tuple. -/
def hash (hashTuple : Key → ℤ) (p : TensorAccessPattern) : Except PyError ℤ := p.key.map hashTuple

end TensorAccessPattern

/-! ## Lists of dimensions -/

/-- The dimension continues the next one as long as it can, and so on from there. -/
def mergeFrom : ℕ × ℤ → List (ℕ × ℤ) → List (ℕ × ℤ)
  | d, [] => [d]
  | d, e :: ds => if d.2 = e.1 * e.2 then mergeFrom (d.1 * e.1, e.2) ds else d :: mergeFrom e ds

def mergeDims : List (ℕ × ℤ) → List (ℕ × ℤ)
  | [] => []
  | d :: ds => mergeFrom d ds

/-- The dimensions without units, merged. -/
def normal (ds : List (ℕ × ℤ)) : List (ℕ × ℤ) := mergeDims (ds.filter fun d => d.1 ≠ 1)

theorem visits_mergeFrom (d : ℕ × ℤ) (ds : List (ℕ × ℤ)) :
    visits (mergeFrom d ds) = visits (d :: ds) := by
  induction ds generalizing d with
  | nil => rfl
  | cons e ds ih =>
    rw [mergeFrom]
    split
    · rename_i h
      rw [ih]
      have hpair := offsets_pair d.1 e.1 e.2
      have := @offsets_replace ℤ _ [] _ _ [] _ _ rfl rfl rfl hpair (ds.map Prod.fst)
        (ds.map Prod.snd)
      rw [visits, visits, List.map_cons, List.map_cons, List.map_cons, List.map_cons, List.map_cons,
        List.map_cons, h]
      exact this.symm
    · rw [visits_cons, ih, visits_cons d]

theorem visits_mergeDims (ds : List (ℕ × ℤ)) : visits (mergeDims ds) = visits ds := by
  cases ds with
  | nil => rfl
  | cons d ds => exact visits_mergeFrom d ds

theorem visits_normal (ds : List (ℕ × ℤ)) : visits (normal ds) = visits ds := by
  rw [normal, visits_mergeDims, visits_filter_unit]

theorem length_mergeFrom (d : ℕ × ℤ) (ds : List (ℕ × ℤ)) :
    (mergeFrom d ds).length ≤ ds.length + 1 := by
  induction ds generalizing d with
  | nil => rfl
  | cons e ds ih =>
    rw [mergeFrom, List.length_cons]
    split
    · exact (ih _).trans (Nat.le_succ _)
    · exact Nat.succ_le_succ (ih e)

theorem length_normal (ds : List (ℕ × ℤ)) : (normal ds).length ≤ ds.length := by
  rw [normal]
  refine le_trans ?_ (List.length_filter_le (fun d : ℕ × ℤ => d.1 ≠ 1) ds)
  cases ds.filter fun d : ℕ × ℤ => d.1 ≠ 1 with
  | nil => rfl
  | cons d ds => exact length_mergeFrom d ds

theorem mergeFrom_head (d : ℕ × ℤ) (ds : List (ℕ × ℤ)) :
    ∃ e es, mergeFrom d ds = e :: es ∧ (e.1 : ℤ) * e.2 = d.1 * d.2 := by
  induction ds generalizing d with
  | nil => exact ⟨d, [], rfl, rfl⟩
  | cons e ds ih =>
    rw [mergeFrom]
    split
    · rename_i h
      obtain ⟨f, es, heq, hf⟩ := ih (d.1 * e.1, e.2)
      refine ⟨f, es, heq, hf.trans ?_⟩
      rw [h]
      push_cast
      ring
    · exact ⟨d, _, rfl, rfl⟩

/-- **What is left is canonical.** -/
theorem canonical_mergeFrom {d : ℕ × ℤ} {ds : List (ℕ × ℤ)} (hd : 2 ≤ d.1)
    (hds : ∀ e ∈ ds, 2 ≤ e.1) :
    (∀ e ∈ mergeFrom d ds, 2 ≤ e.1) ∧
      (mergeFrom d ds).IsChain fun outer inner => outer.2 ≠ (inner.1 : ℤ) * inner.2 := by
  induction ds generalizing d with
  | nil => exact ⟨by simpa [mergeFrom] using hd, .singleton d⟩
  | cons e ds ih =>
    rw [List.forall_mem_cons] at hds
    rw [mergeFrom]
    split
    · refine ih ?_ hds.2
      exact hd.trans (Nat.le_mul_of_pos_right _ (by omega))
    · rename_i hne
      obtain ⟨hall, hchain⟩ := ih hds.1 hds.2
      obtain ⟨f, es, heq, hf⟩ := mergeFrom_head e ds
      refine ⟨List.forall_mem_cons.2 ⟨hd, hall⟩, ?_⟩
      rw [heq] at hchain ⊢
      exact List.isChain_cons_cons.2 ⟨hf ▸ hne, hchain⟩

theorem canonical_normal {ds : List (ℕ × ℤ)} (h : ∀ d ∈ ds, 1 ≤ d.1) :
    Canonical (normal ds).reverse := by
  have hfilter : ∀ d ∈ ds.filter fun d => d.1 ≠ 1, 2 ≤ d.1 := by
    intro d hd
    obtain ⟨hd, hne⟩ := List.mem_filter.1 hd
    have := h d hd
    simp only [decide_eq_true_eq] at hne
    omega
  rw [normal]
  generalize (ds.filter fun d => d.1 ≠ 1) = es at hfilter
  cases es with
  | nil => exact ⟨by simp [mergeDims], by simp [mergeDims]⟩
  | cons d es =>
    rw [List.forall_mem_cons] at hfilter
    obtain ⟨hall, hchain⟩ := canonical_mergeFrom hfilter.1 hfilter.2
    refine ⟨fun e he => hall e (List.mem_reverse.1 he), ?_⟩
    rwa [List.isChain_reverse]

/-- **The walk determines the dimensions that are left.** -/
theorem normal_eq_iff {ds es : List (ℕ × ℤ)} (hd : ∀ d ∈ ds, 1 ≤ d.1) (he : ∀ e ∈ es, 1 ≤ e.1) :
    normal ds = normal es ↔ visits ds = visits es := by
  constructor
  · intro h
    rw [← visits_normal ds, h, visits_normal]
  · intro h
    rw [← visits_normal ds, ← visits_normal es, visits, visits, offsets_eq_place, offsets_eq_place]
      at h
    have hextent : extent (normal ds) = extent (normal es) := by
      simpa using congrArg List.length h
    rw [← List.reverse_inj]
    refine canonical_unique (canonical_normal hd) (canonical_normal he)
      (by rw [extent_reverse, extent_reverse, hextent]) fun k hk => ?_
    rw [extent_reverse] at hk
    rw [hextent] at h
    exact List.map_inj_left.1 h k (List.mem_range.2 (hextent ▸ hk))

/-! ## Coalescing -/

namespace TensorAccessPattern

def ofDims (p : TensorAccessPattern) (ds : List (ℕ × ℤ)) : TensorAccessPattern :=
  ⟨p.tensorDims, p.offset, ds.map Prod.fst, ds.map Prod.snd, none⟩

theorem walk_ofDims (p : TensorAccessPattern) (ds : List (ℕ × ℤ)) :
    (p.ofDims ds).walk = (visits ds).map (p.offset + ·) := rfl

theorem Checked.walk_eq {p : TensorAccessPattern} (h : p.Checked) :
    p.walk = (visits p.transformation_dims).map (p.offset + ·) := by
  rw [walk, visits, transformation_dims, List.map_fst_zip h.length_eq.le,
    List.map_snd_zip h.length_eq.ge]

theorem Checked.one_le_transformation_dims {p : TensorAccessPattern} (h : p.Checked) :
    ∀ d ∈ p.transformation_dims, 1 ≤ d.1 :=
  fun _ hd => h.one_le _ (List.of_mem_zip hd).1

theorem Checked.length_transformation_dims {p : TensorAccessPattern} (h : p.Checked) :
    p.transformation_dims.length = p.rank := by
  rw [transformation_dims, List.length_zip, ← h.length_eq, min_self]
  rfl

theorem Checked.transformation_dims_ne_nil {p : TensorAccessPattern} (h : p.Checked) :
    p.transformation_dims ≠ [] := by
  rw [← List.length_pos_iff, h.length_transformation_dims]
  exact List.length_pos_iff.2 h.nonempty

theorem zero_leading_of_two_le {sizes : List ℕ} (h : ∀ n ∈ sizes, 2 ≤ n) (strides : List ℤ) :
    zero_leading_unit_strides sizes strides = strides := by
  induction sizes, strides using zero_leading_unit_strides.induct with
  | case1 n m sizes t strides hn => rw [zero_leading_unit_strides, if_pos hn]
  | case2 n m sizes t strides hn ih =>
    have := h n List.mem_cons_self
    omega
  | case3 sizes strides hne => rw [zero_leading_unit_strides]; exact hne

theorem withWalk_dims {p : TensorAccessPattern} (hp : p.padding = none) {ds : List (ℕ × ℤ)}
    (h : ∀ d ∈ ds, 2 ≤ d.1) :
    p.withWalk p.offset (ds.map Prod.fst) (ds.map Prod.snd) = .ok (p.ofDims ds) := by
  rw [withWalk, if_neg (by simp [hp]), raw, zero_leading_of_two_le (by simpa using h)]
  rfl

theorem two_le_merged {front back : List (ℕ × ℤ)} {d e : ℕ × ℤ}
    (h : ∀ c ∈ front ++ d :: e :: back, 2 ≤ c.1) (t : ℤ) :
    ∀ c ∈ front ++ (d.1 * e.1, t) :: back, 2 ≤ c.1 := by
  intro c hc
  rcases List.mem_append.1 hc with hc | hc
  · exact h c (List.mem_append_left _ hc)
  · rcases List.mem_cons.1 hc with rfl | hc
    · have hd := h d (by simp)
      have he := h e (by simp)
      exact hd.trans (Nat.le_mul_of_pos_right _ (by omega))
    · exact h c (by simp [hc])

theorem merge_ofDims (p : TensorAccessPattern) {front back : List (ℕ × ℤ)} {d e : ℕ × ℤ}
    (h : ∀ c ∈ front ++ d :: e :: back, 2 ≤ c.1) (hd : d.2 = e.1 * e.2) :
    (p.ofDims (front ++ d :: e :: back)).merge (front.length : ℤ) =
      .ok (p.ofDims (front ++ (d.1 * e.1, e.2) :: back)) := by
  have hrank : (p.ofDims (front ++ d :: e :: back)).rank = front.length + (back.length + 2) := by
    simp [rank, ofDims]
  have haxis : (p.ofDims (front ++ d :: e :: back)).axis front.length = .ok front.length := by
    rw [axis, hrank, if_pos (by constructor <;> push_cast <;> omega)]
    congr 1
    rw [Int.emod_eq_of_lt (by omega) (by push_cast; omega), Int.toNat_natCast]
  have htake {α : Type} (f : ℕ × ℤ → α) :
      ((front ++ d :: e :: back).map f).take front.length = front.map f := by
    rw [List.map_append, List.take_left' (by simp)]
  have hdrop {α : Type} (f : ℕ × ℤ → α) :
      ((front ++ d :: e :: back).map f).drop (front.length + 2) = back.map f := by
    rw [List.map_append, List.drop_append, List.length_map, List.drop_eq_nil_of_le (by simp),
      show front.length + 2 - front.length = 2 by omega]
    rfl
  have hfirst {α : Type} (f : ℕ × ℤ → α) (x : α) :
      ((front ++ d :: e :: back).map f).getD front.length x = f d := by
    simp
  have hsecond {α : Type} (f : ℕ × ℤ → α) (x : α) :
      ((front ++ d :: e :: back).map f).getD (front.length + 1) x = f e := by
    simp
  have hde : 2 ≤ d.1 ∧ 2 ≤ e.1 := ⟨h d (by simp), h e (by simp)⟩
  unfold merge
  refine bind_eq_ok.2 ⟨front.length, haxis, ?_⟩
  have hsizes : (p.ofDims (front ++ d :: e :: back)).sizes =
    (front ++ d :: e :: back).map Prod.fst := rfl
  have hstrides : (p.ofDims (front ++ d :: e :: back)).strides =
    (front ++ d :: e :: back).map Prod.snd := rfl
  simp only [hrank, hsizes, hstrides, htake, hdrop, hfirst, hsecond]
  rw [if_neg (by omega), if_neg (fun h => h.2.2 hd), if_neg (by omega)]
  have hdims : (p.ofDims (front ++ d :: e :: back)).withWalk p.offset _ _ = _ :=
    withWalk_dims rfl (two_le_merged h e.2)
  simpa [ofDims] using hdims

theorem coalesceFrom_ofDims (p : TensorAccessPattern) (fuel : ℕ) (front back : List (ℕ × ℤ))
    (h : ∀ c ∈ front ++ back, 2 ≤ c.1) (hfuel : back.length ≤ fuel) :
    coalesceFrom fuel (p.ofDims (front ++ back)) front.length =
      .ok (p.ofDims (front ++ mergeDims back)) := by
  induction fuel generalizing front back with
  | zero =>
    obtain rfl := List.eq_nil_of_length_eq_zero (Nat.le_zero.1 hfuel)
    rfl
  | succ fuel ih =>
    rw [coalesceFrom]
    match back, h, hfuel with
    | [], h, _ => rw [if_neg (by simp [rank, ofDims])]; rfl
    | [d], h, _ => rw [if_neg (by simp [rank, ofDims])]; rfl
    | d :: e :: back, h, hfuel =>
      rw [if_pos (by simp [rank, ofDims])]
      have hfirst {α : Type} (f : ℕ × ℤ → α) (x : α) :
          ((front ++ d :: e :: back).map f).getD front.length x = f d := by
        simp
      have hsecond {α : Type} (f : ℕ × ℤ → α) (x : α) :
          ((front ++ d :: e :: back).map f).getD (front.length + 1) x = f e := by
        simp
      have hsizes : (p.ofDims (front ++ d :: e :: back)).sizes =
        (front ++ d :: e :: back).map Prod.fst := rfl
      have hstrides : (p.ofDims (front ++ d :: e :: back)).strides =
        (front ++ d :: e :: back).map Prod.snd := rfl
      simp only [hsizes, hstrides, hfirst, hsecond]
      rw [mergeDims, mergeFrom]
      split
      · rename_i hd
        refine bind_eq_ok.2 ⟨_, p.merge_ofDims h hd, ?_⟩
        exact ih front ((d.1 * e.1, e.2) :: back) (two_le_merged h e.2) (by simpa using hfuel)
      · have hnext := ih (front ++ [d]) (e :: back) (by simpa using h) (by simpa using hfuel)
        simpa [mergeDims] using hnext

/-- The last dimension stays where all are units. -/
def coalesced (p : TensorAccessPattern) : List (ℕ × ℤ) :=
  if normal p.transformation_dims = [] then p.transformation_dims.drop (p.rank - 1)
  else normal p.transformation_dims

theorem normal_eq_nil_iff {ds : List (ℕ × ℤ)} :
    normal ds = [] ↔ (ds.filter fun d => d.1 ≠ 1) = [] := by
  rw [normal]
  cases ds.filter fun d : ℕ × ℤ => d.1 ≠ 1 with
  | nil => exact iff_of_true rfl rfl
  | cons d ds =>
    obtain ⟨e, es, heq, -⟩ := mergeFrom_head d ds
    simp [mergeDims, heq]

/-- **What is coalesced**, on an unpadded pattern. -/
theorem coalesce_eq {p : TensorAccessPattern} (h : p.Checked) (hp : p.padding = none) :
    p.coalesce = .ok (p.ofDims p.coalesced) := by
  have htwo : ∀ d ∈ p.transformation_dims.filter fun d => d.1 ≠ 1, 2 ≤ d.1 := by
    intro d hd
    obtain ⟨hd, hne⟩ := List.mem_filter.1 hd
    have := h.one_le_transformation_dims d hd
    simp only [decide_eq_true_eq] at hne
    omega
  unfold coalesce
  refine bind_eq_ok.2 ?_
  by_cases hnil : (p.transformation_dims.filter fun d => d.1 ≠ 1) = []
  · -- all dimensions are units, and the last one is kept
    obtain ⟨front, d, hd⟩ := (List.eq_nil_or_concat' p.transformation_dims).resolve_left
      h.transformation_dims_ne_nil
    have hdrop : p.transformation_dims.drop (p.rank - 1) = [d] := by
      have hrank := congrArg List.length hd
      rw [h.length_transformation_dims, List.length_append, List.length_singleton] at hrank
      rw [hrank, hd, Nat.add_sub_cancel, List.drop_left]
    refine ⟨p.ofDims [d], ?_, ?_⟩
    · rw [dropUnitDims]
      rw [if_pos (by rw [hnil]; rfl), hdrop, withWalk, if_neg (by simp [hp])]
      rfl
    · rw [coalesced, if_pos (normal_eq_nil_iff.2 hnil), hdrop]
      rfl
  · have hnormal : normal p.transformation_dims ≠ [] := fun hn => hnil (normal_eq_nil_iff.1 hn)
    refine ⟨p.ofDims (p.transformation_dims.filter fun d => d.1 ≠ 1), ?_, ?_⟩
    · rw [dropUnitDims]
      rw [if_neg (by simpa using hnil)]
      exact withWalk_dims hp htwo
    · have hloop := coalesceFrom_ofDims p
        (p.ofDims (p.transformation_dims.filter fun d => d.1 ≠ 1)).rank []
        (p.transformation_dims.filter fun d => d.1 ≠ 1) htwo (by simp [rank, ofDims])
      rw [coalesced, if_neg hnormal]
      exact hloop

theorem walk_raw_eq (tensorDims : List ℕ) (offset : ℤ) (sizes : List ℕ) (strides : List ℤ)
    (padding : Option (List (ℕ × ℕ))) : (raw tensorDims offset sizes strides padding).walk =
      (offsets sizes strides).map (offset + ·) := by
  unfold walk raw
  rw [offsets_zero_leading_unit_strides]

theorem transformation_dims_ofDims (p : TensorAccessPattern) (ds : List (ℕ × ℤ)) :
    (p.ofDims ds).transformation_dims = ds := by
  rw [transformation_dims, ofDims, ← List.unzip_fst, ← List.unzip_snd, List.zip_unzip]

/-! ## Equality -/

theorem key_eq {p : TensorAccessPattern} (h : p.Checked) (hp : p.padding = none) :
    p.key = .ok ⟨p.tensorDims, p.offset, normal p.transformation_dims, none⟩ := by
  unfold key
  rw [if_neg (by simp [hp])]
  refine bind_eq_ok.2 ⟨_, coalesce_eq h hp, ?_⟩
  rw [transformation_dims_ofDims, coalesced]
  split
  · rename_i hnil
    have hsub : (p.transformation_dims.drop (p.rank - 1)).filter (fun d => d.1 ≠ 1) = [] :=
      List.sublist_nil.1 (normal_eq_nil_iff.1 hnil ▸ (List.drop_sublist _ _).filter _)
    rw [hsub, hnil]
  · rw [List.filter_eq_self.2]
    intro d hd
    have := (canonical_normal h.one_le_transformation_dims).1 d (List.mem_reverse.2 hd)
    simp only [decide_eq_true_eq]
    omega

/-- A walk starts at its offset. -/
theorem visits_head {ds : List (ℕ × ℤ)} (h : ∀ d ∈ ds, 1 ≤ d.1) : (visits ds).head? = some 0 := by
  have hpos : 0 < extent ds := List.prod_pos fun n hn => by
    obtain ⟨d, hd, rfl⟩ := List.mem_map.1 hn
    exact h d hd
  rw [visits, offsets_eq_place, List.head?_map, List.head?_range, if_neg hpos.ne']
  exact congrArg some (place_zero _)

theorem walk_inj {p q : TensorAccessPattern} (hp : p.Checked) (hq : q.Checked) :
    p.walk = q.walk ↔
      p.offset = q.offset ∧ visits p.transformation_dims = visits q.transformation_dims := by
  rw [hp.walk_eq, hq.walk_eq]
  constructor
  · intro h
    have hhead := congrArg List.head? h
    rw [List.head?_map, List.head?_map, visits_head hp.one_le_transformation_dims,
      visits_head hq.one_le_transformation_dims] at hhead
    have hoffset : p.offset = q.offset := by simpa using hhead
    rw [hoffset] at h
    exact ⟨hoffset, List.map_injective_iff.2 (add_right_injective _) h⟩
  · rintro ⟨hoffset, hvisits⟩
    rw [hoffset, hvisits]

/-- **Equality decides equality of walks**, and equal patterns have one hash. -/
theorem eq_iff_walk (hashTuple : Key → ℤ) (p q : TensorAccessPattern) (hp : p.Checked)
    (hq : q.Checked) (hpadding : p.padding = none) (hpadding' : q.padding = none) :
    (p.eq q = .ok true ↔ p.tensorDims = q.tensorDims ∧ p.walk = q.walk) ∧
      (p.eq q = .ok true → p.hash hashTuple = q.hash hashTuple) := by
  have heq : p.eq q = .ok (decide
      ((⟨p.tensorDims, p.offset, normal p.transformation_dims, none⟩ : Key) =
        ⟨q.tensorDims, q.offset, normal q.transformation_dims, none⟩)) := by
    unfold eq
    refine bind_eq_ok.2 ⟨_, key_eq hp hpadding, bind_eq_ok.2 ⟨_, key_eq hq hpadding', rfl⟩⟩
  rw [heq, hash, hash, key_eq hp hpadding, key_eq hq hpadding', walk_inj hp hq,
    ← normal_eq_iff hp.one_le_transformation_dims hq.one_le_transformation_dims, Except.ok.injEq,
    decide_eq_true_iff, Key.mk.injEq]
  exact ⟨by tauto, fun ⟨h, h', h'', _⟩ => by rw [h, h', h'']⟩

def halvedColumns : TensorAccessPattern := ⟨[4, 6], 0, [6, 2, 2], [1, 12, 6], none⟩

def columns : TensorAccessPattern := ⟨[4, 6], 0, [6, 4], [1, 6], none⟩

theorem halvedColumns_checked : halvedColumns.Checked := ⟨by decide, by decide, by decide⟩

theorem columns_checked : columns.Checked := ⟨by decide, by decide, by decide⟩

theorem columns_eq_iff_walk :
    (halvedColumns.eq columns = .ok true ↔
        halvedColumns.tensorDims = columns.tensorDims ∧ halvedColumns.walk = columns.walk) ∧
      (halvedColumns.eq columns = .ok true → halvedColumns.hash (fun k => k.offset) =
        columns.hash fun k => k.offset) :=
  eq_iff_walk (fun k => k.offset) halvedColumns columns halvedColumns_checked columns_checked rfl
    rfl

end TensorAccessPattern

end MlirAie.Tap
