import MlirAie.Tap.Coalesce

/-!
# Reshaping an access pattern

* `permute`, `split`, `repeat_`, `tile`, `partition`: the operations;
* `Keeps`: what each operation does to the walk;
* **`reshape_keeps_iff`**: it does, but where a dimension is split by a negative size.
-/

namespace MlirAie.Tap

open MlirAie.Lib

/-! ## The operations -/

/-- What `split` raises. -/
inductive SplitError where
  | py (e : PyError)
  | ZeroDivisionError
  deriving DecidableEq

/-- `repr` of a tuple of integers. -/
def showTuple : List ℤ → String
  | [x] => "(" ++ toString x ++ ",)"
  | xs => "(" ++ ", ".intercalate (xs.map toString) ++ ")"

def validate_permutation (axes : List ℤ) (rank : ℕ) (what : String) : Except PyError (List ℕ) :=
  if axes.insertionSort (· ≤ ·) ≠ (List.range rank).map Nat.cast then
    .error (.ValueError (what ++ " must be a permutation of range(" ++ toString rank ++ "), got " ++
      showTuple axes))
  else .ok (axes.map Int.toNat)

structure IntPattern where
  tensorDims : List ℕ
  offset : ℤ
  sizes : List ℤ
  strides : List ℤ
  deriving DecidableEq

def IntPattern.walk (q : IntPattern) : List ℤ :=
  (offsets (q.sizes.map Int.toNat) q.strides).map (q.offset + ·)

namespace TensorAccessPattern

def toInt (p : TensorAccessPattern) : IntPattern :=
  ⟨p.tensorDims, p.offset, p.sizes.map Nat.cast, p.strides⟩

def permute (p : TensorAccessPattern) (axes : List ℤ) : Except PyError TensorAccessPattern := do
  let axes ← validate_permutation axes p.rank "axes"
  p.withWalk p.offset (axes.map fun a => p.sizes.getD a 0) (axes.map fun a => p.strides.getD a 0)

def split (p : TensorAccessPattern) (dim inner : ℤ) : Except SplitError IntPattern := do
  let dim' ← (p.axis dim).mapError .py
  let n := p.sizes.getD dim' 0
  let s := p.strides.getD dim' 0
  if inner = 0 then .error .ZeroDivisionError
  else do
    (require (n % inner = 0) ("dimension " ++ toString dim' ++ " of size " ++ toString n ++
      " is not divisible by " ++ toString inner)).mapError .py
    let sizes := (p.sizes.take dim').map Nat.cast ++
      ([n / inner, inner] ++ (p.sizes.drop (dim' + 1)).map Nat.cast)
    let strides := p.strides.take dim' ++ ([s * inner, s] ++ p.strides.drop (dim' + 1))
    if p.padding.isSome then
      .error (.py (.ValueError "a padded pattern cannot be reshaped further; apply pad() last"))
    else .ok ⟨p.tensorDims, p.offset, sizes,
      zero_leading_unit_strides (sizes.map Int.toNat) strides⟩

def repeat_ (p : TensorAccessPattern) (count : ℤ) : Except PyError TensorAccessPattern := do
  require (1 ≤ count) ("repeat count must be >= 1, got " ++ toString count)
  p.withWalk p.offset (count.toNat :: p.sizes) (0 :: p.strides)

/-- The loop of `tile`, over the dimensions from `dim` on. -/
def grid : ℕ → List (ℕ × ℤ) → List ℤ → Except PyError (List (ℕ × ℤ))
  | dim, (n, s) :: dims, t :: tileDims => do
    require (1 ≤ t) ("tile_dims[" ++ toString dim ++ "] must be >= 1")
    require (n % t = 0) ("dimension " ++ toString dim ++ " of size " ++ toString n ++
      " is not divisible by tile size " ++ toString t)
    let rest ← grid (dim + 1) dims tileDims
    .ok ((n / t.toNat, s * t) :: rest)
  | _, _, _ => .ok []

def tile (p : TensorAccessPattern) (tileDims : List ℤ) : Except PyError TensorAccessPattern :=
  if tileDims.length ≠ p.rank then
    .error (.ValueError ("tile_dims has " ++ toString tileDims.length ++
      " entries for a pattern of rank " ++ toString p.rank))
  else do
    let grid ← grid 0 p.transformation_dims tileDims
    p.withWalk p.offset (grid.map Prod.fst ++ tileDims.map Int.toNat)
      (grid.map Prod.snd ++ p.strides)

def partition (p : TensorAccessPattern) (parts : ℤ) (dim : ℤ) :
    Except PyError TensorAccessPattern := do
  let dim' ← p.axis dim
  let n := p.sizes.getD dim' 0
  let s := p.strides.getD dim' 0
  require (1 ≤ parts) "parts must be >= 1"
  require (n % parts = 0) ("dimension " ++ toString dim' ++ " of size " ++ toString n ++
    " is not divisible into " ++ toString parts ++ " parts")
  let chunk := n / parts.toNat
  p.withWalk p.offset (parts.toNat :: p.sizes.set dim' chunk) (s * chunk :: p.strides)

end TensorAccessPattern

/-! ## Arrays -/

/-- The entry `axes[i]` of the index of an array is entry `i` of that of its transpose. -/
def transposed {α : Type*} (a : NdArray α) (axes : List ℕ) : NdArray α where
  shape := axes.map fun i => a.shape.getD i 0
  get js := a.get ((List.range a.shape.length).map fun i => js.getD (axes.idxOf i) 0)

/-- The array by tiles: the place in the grid, then the place in the tile. -/
def tiled {α : Type*} (a : NdArray α) (tileDims : List ℕ) : NdArray α where
  shape := List.zipWith (· / ·) a.shape tileDims ++ tileDims
  get js := a.get (List.zipWith (· + ·)
    (List.zipWith (· * ·) (js.take tileDims.length) tileDims) (js.drop tileDims.length))

def pieces {α : Type*} (a : NdArray α) (parts dim : ℕ) : NdArray α where
  shape := parts :: a.shape.set dim (a.shape.getD dim 0 / parts)
  get js := a.get (js.tail.modify dim (js.headI * (a.shape.getD dim 0 / parts) + ·))

/-! ## What the operations do -/

inductive Reshape where
  | permute (axes : List ℤ)
  | split (dim inner : ℤ)
  | merge (dim : ℤ)
  | coalesce
  | repeat_ (count : ℤ)
  | tile (tileDims : List ℤ)
  | partition (parts dim : ℤ)

namespace TensorAccessPattern

def reshape (p : TensorAccessPattern) : Reshape → Except SplitError IntPattern
  | .permute axes => ((p.permute axes).map toInt).mapError .py
  | .split dim inner => p.split dim inner
  | .merge dim => ((p.merge dim).map toInt).mapError .py
  | .coalesce => (p.coalesce.map toInt).mapError .py
  | .repeat_ count => ((p.repeat_ count).map toInt).mapError .py
  | .tile tileDims => ((p.tile tileDims).map toInt).mapError .py
  | .partition parts dim => ((p.partition parts dim).map toInt).mapError .py

/-- What the walk of the result is. -/
def Keeps (p : TensorAccessPattern) (q : IntPattern) : Reshape → Prop
  | .permute axes => q.walk = (transposed p.array (axes.map Int.toNat)).ravel
  | .split _ _ => q.walk = p.walk
  | .merge _ => q.walk = p.walk
  | .coalesce => q.walk = p.walk ∧ ∀ (offset : ℤ) (sizes : List ℕ) (strides : List ℤ), sizes ≠ [] →
      sizes.length = strides.length → (offsets sizes strides).map (offset + ·) = p.walk →
      q.sizes.length ≤ sizes.length
  | .repeat_ count => q.walk = (List.replicate count.toNat p.walk).flatten
  | .tile tileDims => q.walk = (tiled p.array (tileDims.map Int.toNat)).ravel
  | .partition parts dim => q.walk = (pieces p.array parts.toNat (dim % p.rank).toNat).ravel

def SplitsPositive : Reshape → Prop
  | .split _ inner => 0 < inner
  | _ => True

/-! ## Results -/

theorem map_toNat_cast (l : List ℕ) : (l.map (Nat.cast : ℕ → ℤ)).map Int.toNat = l := by
  rw [List.map_map]
  have : Int.toNat ∘ (Nat.cast : ℕ → ℤ) = id := by
    funext n
    exact Int.toNat_natCast n
  rw [this, List.map_id]

theorem walk_toInt (p : TensorAccessPattern) : p.toInt.walk = p.walk := by
  rw [IntPattern.walk, toInt, map_toNat_cast]
  rfl

theorem mapError_eq_ok {α ε ε' : Type} {x : Except ε α} {f : ε → ε'} {a : α} :
    x.mapError f = .ok a ↔ x = .ok a := by
  cases x <;> simp [Except.mapError]

theorem map_eq_ok {α β ε : Type} {x : Except ε α} {f : α → β} {b : β} :
    x.map f = .ok b ↔ ∃ a, x = .ok a ∧ f a = b := by
  cases x <;> simp [Except.map]

theorem require_eq_ok {cond : Bool} {message : String} {u : Unit} :
    require cond message = .ok u ↔ cond = true := by
  cases cond <;> simp [require]

theorem withWalk_eq_ok {p q : TensorAccessPattern} {offset : ℤ} {sizes : List ℕ}
    {strides : List ℤ} : p.withWalk offset sizes strides = .ok q ↔
      p.padding = none ∧ q = raw p.tensorDims offset sizes strides none := by
  unfold withWalk
  cases p.padding <;> simp [eq_comm]

theorem axis_eq_ok {p : TensorAccessPattern} {dim : ℤ} {dim' : ℕ} :
    p.axis dim = .ok dim' ↔ (-p.rank ≤ dim ∧ dim < p.rank) ∧ dim' = (dim % p.rank).toNat := by
  unfold axis
  split
  · rename_i h
    rw [Except.ok.injEq, eq_comm, and_iff_right h]
  · rename_i h
    exact ⟨fun h => (nomatch h), fun h' => (h h'.1).elim⟩

theorem axis_lt {p : TensorAccessPattern} {dim : ℤ} {dim' : ℕ} (h : p.axis dim = .ok dim') :
    dim' < p.sizes.length := by
  obtain ⟨⟨hlo, hhi⟩, rfl⟩ := axis_eq_ok.1 h
  have hpos : (0 : ℤ) < p.rank := by omega
  have := Int.emod_lt_of_pos dim hpos
  have := Int.emod_nonneg dim hpos.ne'
  change _ < p.rank
  omega

theorem eq_take_append_getD {α : Type} {l : List α} {i : ℕ} (h : i < l.length) (x : α) :
    l = l.take i ++ ([l.getD i x] ++ l.drop (i + 1)) := by
  rw [List.getD_eq_getElem _ _ h, List.singleton_append, ← List.drop_eq_getElem_cons h,
    List.take_append_drop]

theorem eq_take_append_pair {α : Type} {l : List α} {i : ℕ} (h : i + 1 < l.length) (x : α) :
    l = l.take i ++ ([l.getD i x, l.getD (i + 1) x] ++ l.drop (i + 2)) := by
  conv_lhs => rw [eq_take_append_getD (by omega : i < l.length) x]
  rw [List.drop_eq_getElem_cons h, List.getD_eq_getElem _ _ h]
  rfl

theorem offsets_replace_at {p : TensorAccessPattern} (hp : p.Checked) {i : ℕ}
    (hi : i < p.sizes.length) {ms : List ℕ} {us : List ℤ} (hms : ms.length = us.length)
    (h : offsets ms us = offsets [p.sizes.getD i 0] [p.strides.getD i 0]) :
    offsets (p.sizes.take i ++ (ms ++ p.sizes.drop (i + 1)))
      (p.strides.take i ++ (us ++ p.strides.drop (i + 1))) = offsets p.sizes p.strides := by
  have hi' : i < p.strides.length := hp.length_eq ▸ hi
  conv_rhs => rw [eq_take_append_getD hi 0, eq_take_append_getD hi' 0]
  refine offsets_replace ?_ hms rfl h _ _
  rw [List.length_take, List.length_take, hp.length_eq]

theorem offsets_replace_pair {p : TensorAccessPattern} (hp : p.Checked) {i : ℕ}
    (hi : i + 1 < p.sizes.length) {ms : List ℕ} {us : List ℤ} (hms : ms.length = us.length)
    (h : offsets ms us = offsets [p.sizes.getD i 0, p.sizes.getD (i + 1) 0]
      [p.strides.getD i 0, p.strides.getD (i + 1) 0]) :
    offsets (p.sizes.take i ++ (ms ++ p.sizes.drop (i + 2)))
      (p.strides.take i ++ (us ++ p.strides.drop (i + 2))) = offsets p.sizes p.strides := by
  have hi' : i + 1 < p.strides.length := hp.length_eq ▸ hi
  conv_rhs => rw [eq_take_append_pair hi 0, eq_take_append_pair hi' 0]
  refine offsets_replace ?_ hms rfl h _ _
  rw [List.length_take, List.length_take, hp.length_eq]

theorem Checked.walk_ne_nil {p : TensorAccessPattern} (hp : p.Checked) : p.walk ≠ [] := by
  rw [walk, offsets_eq_map hp.length_eq, List.map_map, Ne, List.map_eq_nil_iff]
  refine indices_ne_nil_iff.2 fun n hn => ?_
  have := hp.one_le n hn
  omega

theorem offsets_eq_nil_of_mem {sizes : List ℕ} {strides : List ℤ}
    (h : sizes.length = strides.length) (hmem : 0 ∈ sizes) : offsets sizes strides = [] := by
  rw [offsets_eq_map h, List.map_eq_nil_iff]
  by_contra hne
  exact indices_ne_nil_iff.1 hne 0 hmem rfl

theorem split_eq_ok {p : TensorAccessPattern} {dim inner : ℤ} {q : IntPattern}
    (h : p.split dim inner = .ok q) : ∃ dim', dim' < p.sizes.length ∧
      inner ≠ 0 ∧ inner ∣ p.sizes.getD dim' 0 ∧
      q.walk = (offsets
        (p.sizes.take dim' ++ ([((p.sizes.getD dim' 0 : ℤ) / inner).toNat, inner.toNat] ++
          p.sizes.drop (dim' + 1)))
        (p.strides.take dim' ++ ([p.strides.getD dim' 0 * inner, p.strides.getD dim' 0] ++
          p.strides.drop (dim' + 1)))).map (p.offset + ·) := by
  unfold split at h
  obtain ⟨dim', haxis, h⟩ := bind_eq_ok.1 h
  simp only at h
  split at h
  · cases h
  · rename_i hinner
    obtain ⟨_, hdvd, h⟩ := bind_eq_ok.1 h
    rw [mapError_eq_ok, require_eq_ok, decide_eq_true_iff] at hdvd
    split at h
    · cases h
    · cases h
      refine ⟨dim', axis_lt (mapError_eq_ok.1 haxis), hinner, Int.dvd_of_emod_eq_zero hdvd, ?_⟩
      rw [IntPattern.walk, offsets_zero_leading_unit_strides]
      simp only [List.map_append, map_toNat_cast]
      rfl

/-- **A split** keeps the walk where its size is positive, and has none where it is negative. -/
theorem split_walk_iff {p : TensorAccessPattern} (hp : p.Checked) {dim inner : ℤ} {q : IntPattern}
    (h : p.split dim inner = .ok q) : q.walk = p.walk ↔ 0 < inner := by
  obtain ⟨dim', hdim, hinner, hdvd, hwalk⟩ := split_eq_ok h
  have hdim' : dim' < p.strides.length := hp.length_eq ▸ hdim
  constructor
  · intro heq
    by_contra hneg
    refine hp.walk_ne_nil ?_
    rw [← heq, hwalk, offsets_eq_nil_of_mem, List.map_nil]
    · simp [List.length_take, hp.length_eq]
    · rw [Int.toNat_of_nonpos (not_lt.1 hneg)]
      simp
  · intro hpos
    obtain ⟨k, rfl⟩ := Int.eq_ofNat_of_zero_le hpos.le
    obtain ⟨m, hm⟩ := Int.natCast_dvd_natCast.1 hdvd
    rw [hwalk, walk, offsets_replace_at hp hdim rfl]
    have hk : 0 < k := by omega
    rw [hm, Int.toNat_natCast, Nat.cast_mul, Int.mul_ediv_cancel_left _ (by omega),
      Int.toNat_natCast, mul_comm _ (k : ℤ), offsets_pair, Nat.mul_comm]

theorem merge_walk {p q : TensorAccessPattern} (hp : p.Checked) {dim : ℤ}
    (h : p.merge dim = .ok q) : q.walk = p.walk := by
  unfold merge at h
  obtain ⟨dim', haxis, h⟩ := bind_eq_ok.1 h
  split at h
  · cases h
  · rename_i hrank
    have hdim : dim' + 1 < p.sizes.length := not_le.1 hrank
    have hdim' : dim' + 1 < p.strides.length := hp.length_eq ▸ hdim
    simp only at h
    split at h
    · cases h
    · rename_i hcontiguous
      obtain ⟨-, rfl⟩ := withWalk_eq_ok.1 h
      rw [walk_raw_eq, walk, offsets_replace_pair hp hdim rfl]
      generalize p.sizes.getD dim' 0 = n0 at *
      generalize p.sizes.getD (dim' + 1) 0 = n1 at *
      by_cases h1 : n1 = 1
      · rw [if_pos h1, h1, Nat.mul_one, offsets_cons n0 [1], offsets_one_cons]
        rfl
      · rw [if_neg h1]
        by_cases h0 : n0 = 1
        · rw [h0, Nat.one_mul, offsets_one_cons]
        · rw [of_not_not fun hne => hcontiguous ⟨h0, h1, hne⟩]
          exact (offsets_pair n0 n1 _).symm

theorem visits_drop_unit {ds : List (ℕ × ℤ)} (h : (ds.filter fun d => d.1 ≠ 1) = []) (k : ℕ) :
    visits (ds.drop k) = visits ds := by
  have hsub : ((ds.drop k).filter fun d => d.1 ≠ 1) = [] :=
    List.sublist_nil.1 (h ▸ (List.drop_sublist k ds).filter _)
  rw [← visits_filter_unit ds, ← visits_filter_unit (ds.drop k), h, hsub]

theorem padding_of_coalesce {p q : TensorAccessPattern} (h : p.coalesce = .ok q) :
    p.padding = none := by
  unfold coalesce at h
  obtain ⟨out, hout, -⟩ := bind_eq_ok.1 h
  exact (withWalk_eq_ok.1 hout).1

/-- **Coalescing** keeps the walk, and no list of fewer dimensions has it. -/
theorem coalesce_walk {p q : TensorAccessPattern} (hp : p.Checked) (h : p.coalesce = .ok q) :
    q.walk = p.walk ∧ ∀ (offset : ℤ) (sizes : List ℕ) (strides : List ℤ), sizes ≠ [] →
      sizes.length = strides.length → (offsets sizes strides).map (offset + ·) = p.walk →
      q.rank ≤ sizes.length := by
  rw [coalesce_eq hp (padding_of_coalesce h), Except.ok.injEq] at h
  subst h
  have hnormal : visits p.coalesced = visits p.transformation_dims := by
    rw [coalesced]
    split
    · rename_i hnil
      exact visits_drop_unit (normal_eq_nil_iff.1 hnil) _
    · exact visits_normal _
  refine ⟨by rw [walk_ofDims, hnormal, hp.walk_eq], fun offset sizes strides hne hlen hwalk => ?_⟩
  have hq : (⟨p.tensorDims, offset, sizes, strides, none⟩ : TensorAccessPattern).Checked := by
    refine ⟨hne, hlen, fun n hn => Nat.one_le_iff_ne_zero.2 ?_⟩
    rintro rfl
    rw [offsets_eq_nil_of_mem hlen hn, List.map_nil] at hwalk
    exact hp.walk_ne_nil hwalk.symm
  have hnormal := (normal_eq_iff hq.one_le_transformation_dims hp.one_le_transformation_dims).2
    ((walk_inj hq hp).1 hwalk).2
  have hrank : (p.ofDims p.coalesced).rank = p.coalesced.length := by simp [rank, ofDims]
  rw [hrank, coalesced]
  split
  · rw [List.length_drop, hp.length_transformation_dims]
    have := List.length_pos_iff.2 hne
    omega
  · rw [← hnormal]
    refine (length_normal _).trans ?_
    rw [hq.length_transformation_dims]
    exact le_rfl

theorem repeat_walk {p q : TensorAccessPattern} {count : ℤ} (h : p.repeat_ count = .ok q) :
    q.walk = (List.replicate count.toNat p.walk).flatten := by
  unfold repeat_ at h
  obtain ⟨_, -, h⟩ := bind_eq_ok.1 h
  obtain ⟨-, rfl⟩ := withWalk_eq_ok.1 h
  rw [walk_raw_eq, offsets_cons, walk]
  generalize offsets p.sizes p.strides = l
  induction count.toNat with
  | zero => rfl
  | succ n ih =>
    rw [run_add, nest_append, List.map_append, ih, List.replicate_succ', List.flatten_concat]
    simp [run]

/-! ## Places in arrays -/

theorem length_of_mem_indices {shape js : List ℕ} (h : js ∈ indices shape) :
    js.length = shape.length := by
  induction shape generalizing js with
  | nil => rw [List.mem_singleton.1 h]
  | cons n shape ih =>
    obtain ⟨i, js', -, hjs', rfl⟩ := mem_indices_cons.1 h
    rw [List.length_cons, ih hjs', List.length_cons]

theorem dot_map {ι : Type} (l : List ι) (f : ι → ℤ) (g : ι → ℕ) :
    dot (l.map f) (l.map g) = (l.map fun i => (g i : ℤ) * f i).sum := by
  induction l with
  | nil => rfl
  | cons i l ih => rw [List.map_cons, List.map_cons, dot_cons, ih, List.map_cons, List.sum_cons]

theorem dot_append {us ts : List ℤ} {is js : List ℕ} (h : us.length = is.length) :
    dot (us ++ ts) (is ++ js) = dot us is + dot ts js := by
  induction us generalizing is with
  | nil =>
    obtain rfl := List.eq_nil_of_length_eq_zero h.symm
    exact (zero_add _).symm
  | cons u us ih =>
    cases is with
    | nil => cases h
    | cons i is =>
      rw [List.cons_append, List.cons_append, dot_cons, dot_cons, ih (Nat.succ.inj h), add_assoc]

theorem dot_modify {ts : List ℤ} {js : List ℕ} {i : ℕ} (hi : i < ts.length)
    (h : ts.length = js.length) (c : ℕ) :
    dot ts (js.modify i (c + ·)) = c * ts.getD i 0 + dot ts js := by
  induction i generalizing ts js with
  | zero =>
    match ts, js, hi, h with
    | t :: ts, j :: js, _, _ =>
      rw [List.modify_zero_cons, dot_cons, dot_cons, List.getD_cons_zero]
      push_cast
      ring
  | succ i ih =>
    match ts, js, hi, h with
    | t :: ts, j :: js, hi, h =>
      rw [List.modify_succ_cons, dot_cons, dot_cons, List.getD_cons_succ,
        ih (Nat.lt_of_succ_lt_succ hi) (Nat.succ.inj h)]
      ring

/-- The place of an element of a tile. -/
theorem dot_tiles {ts : List ℤ} {tiles is js : List ℕ} (htiles : ts.length = tiles.length)
    (hi : ts.length = is.length) (hj : ts.length = js.length) :
    dot (List.zipWith (fun (s : ℤ) (t : ℕ) => s * (t : ℤ)) ts tiles) is + dot ts js =
      dot ts (List.zipWith (· + ·) (List.zipWith (· * ·) is tiles) js) := by
  induction ts generalizing tiles is js with
  | nil => rfl
  | cons s ts ih =>
    match tiles, is, js, htiles, hi, hj with
    | t :: tiles, i :: is, j :: js, htiles, hi, hj =>
      rw [List.zipWith_cons_cons, List.zipWith_cons_cons, List.zipWith_cons_cons, dot_cons,
        dot_cons, dot_cons, ← ih (Nat.succ.inj htiles) (Nat.succ.inj hi) (Nat.succ.inj hj)]
      push_cast
      ring

theorem walk_raw_ravel {p : TensorAccessPattern} {sizes : List ℕ} {strides : List ℤ}
    {a : NdArray ℤ} (hlen : sizes.length = strides.length) (hshape : a.shape = sizes)
    (hget : ∀ js ∈ indices sizes, a.get js = p.offset + dot strides js) :
    (raw p.tensorDims p.offset sizes strides none).walk = a.ravel := by
  rw [walk_raw _ _ _ hlen, NdArray.ravel, hshape]
  exact List.map_congr_left fun js hjs => (hget js hjs).symm

theorem permute_walk {p q : TensorAccessPattern} (hp : p.Checked) {axes : List ℤ}
    (h : p.permute axes = .ok q) : q.walk = (transposed p.array (axes.map Int.toNat)).ravel := by
  unfold permute at h
  obtain ⟨axes', haxes, h⟩ := bind_eq_ok.1 h
  obtain ⟨-, rfl⟩ := withWalk_eq_ok.1 h
  have hperm : axes' = axes.map Int.toNat ∧ axes'.Perm (List.range p.rank) := by
    unfold validate_permutation at haxes
    split at haxes
    · cases haxes
    · rename_i hsorted
      cases haxes
      refine ⟨rfl, ?_⟩
      have := (List.perm_insertionSort (· ≤ ·) axes).symm.map Int.toNat
      rwa [not_not.1 hsorted, map_toNat_cast] at this
  obtain ⟨rfl, hperm⟩ := hperm
  generalize axes.map Int.toNat = axes' at *
  refine walk_raw_ravel (by simp) rfl fun js hjs => ?_
  have hlen : js.length = axes'.length := by simpa using length_of_mem_indices hjs
  have hnodup : axes'.Nodup := hperm.nodup_iff.2 List.nodup_range
  have hjs' : js = axes'.map fun i => js.getD (axes'.idxOf i) 0 := by
    refine List.ext_getElem (by rw [List.length_map, hlen]) fun i hi hi' => ?_
    rw [List.getElem_map, hnodup.idxOf_getElem i, List.getD_eq_getElem _ _ hi]
  have hstrides : p.strides = (List.range p.rank).map fun i => p.strides.getD i 0 := by
    refine List.ext_getElem (by simp [rank, hp.length_eq]) fun i hi hi' => ?_
    rw [List.getElem_map, List.getElem_range, List.getD_eq_getElem _ _ hi]
  rw [transposed, array]
  simp only
  congr 1
  conv_lhs => rw [hstrides]
  conv_rhs => rw [hjs']
  rw [dot_map]
  exact (dot_map _ _ _).trans (hperm.symm.map _).sum_eq

theorem partition_walk {p q : TensorAccessPattern} (hp : p.Checked) {parts dim : ℤ}
    (h : p.partition parts dim = .ok q) :
    q.walk = (pieces p.array parts.toNat (dim % p.rank).toNat).ravel := by
  unfold partition at h
  obtain ⟨dim', haxis, h⟩ := bind_eq_ok.1 h
  obtain ⟨_, -, h⟩ := bind_eq_ok.1 h
  obtain ⟨_, -, h⟩ := bind_eq_ok.1 h
  obtain ⟨-, rfl⟩ := withWalk_eq_ok.1 h
  have hdim := axis_lt haxis
  obtain rfl := (axis_eq_ok.1 haxis).2
  generalize (dim % p.rank).toNat = dim' at *
  refine walk_raw_ravel (by simp [hp.length_eq]) rfl fun js hjs => ?_
  obtain ⟨i, js, -, hjs, rfl⟩ := mem_indices_cons.1 hjs
  have hlen : js.length = p.sizes.length := by simpa using length_of_mem_indices hjs
  rw [pieces, array]
  simp only [List.tail_cons, List.headI_cons]
  rw [dot_modify (hp.length_eq ▸ hdim) (by rw [hlen, hp.length_eq]), dot_cons]
  push_cast
  ring

theorem grid_eq_ok {dim : ℕ} {dims : List (ℕ × ℤ)} {tileDims : List ℤ} {g : List (ℕ × ℤ)}
    (h : grid dim dims tileDims = .ok g) (hlen : dims.length = tileDims.length) :
    g.map Prod.fst = List.zipWith (· / ·) (dims.map Prod.fst) (tileDims.map Int.toNat) ∧
      g.map Prod.snd = List.zipWith (fun (s : ℤ) (t : ℕ) => s * (t : ℤ)) (dims.map Prod.snd)
        (tileDims.map Int.toNat) := by
  induction dims generalizing dim tileDims g with
  | nil =>
    obtain rfl : [] = g := by simpa [grid] using h
    exact ⟨rfl, rfl⟩
  | cons d dims ih =>
    obtain ⟨n, s⟩ := d
    cases tileDims with
    | nil => cases hlen
    | cons t tileDims =>
      unfold grid at h
      obtain ⟨_, ht, h⟩ := bind_eq_ok.1 h
      obtain ⟨_, -, h⟩ := bind_eq_ok.1 h
      obtain ⟨rest, hrest, h⟩ := bind_eq_ok.1 h
      cases h
      rw [require_eq_ok, decide_eq_true_iff] at ht
      obtain ⟨hfst, hsnd⟩ := ih hrest (Nat.succ.inj hlen)
      have htoNat : ((t.toNat : ℕ) : ℤ) = t := Int.toNat_of_nonneg (by omega)
      exact ⟨by simp [hfst], by simp [hsnd, htoNat]⟩

theorem tile_walk {p q : TensorAccessPattern} (hp : p.Checked) {tileDims : List ℤ}
    (h : p.tile tileDims = .ok q) : q.walk = (tiled p.array (tileDims.map Int.toNat)).ravel := by
  unfold tile at h
  split at h
  · cases h
  · rename_i hlength
    have hlength : tileDims.length = p.sizes.length := not_not.1 hlength
    obtain ⟨g, hgrid, h⟩ := bind_eq_ok.1 h
    obtain ⟨-, rfl⟩ := withWalk_eq_ok.1 h
    obtain ⟨hfst, hsnd⟩ := grid_eq_ok hgrid
      (by rw [hp.length_transformation_dims, hlength]; rfl)
    rw [transformation_dims, List.map_fst_zip hp.length_eq.le] at hfst
    rw [transformation_dims, List.map_snd_zip hp.length_eq.ge] at hsnd
    rw [hfst, hsnd]
    refine walk_raw_ravel (by simp [hp.length_eq, hlength]) rfl fun js hjs => ?_
    have hlen := length_of_mem_indices hjs
    have heq := hp.length_eq
    simp only [List.length_append, List.length_zipWith, List.length_map] at hlen
    rw [tiled, array]
    simp only
    conv_rhs => rw [← List.take_append_drop tileDims.length js]
    rw [dot_append (by simp; omega), List.length_map,
      dot_tiles (by simp; omega) (by simp; omega) (by simp; omega)]

/-- **Reshaping** keeps the walk, or makes it that of the reshaped array, unless a dimension is
split by a negative size. -/
theorem reshape_keeps_iff (p : TensorAccessPattern) (hp : p.Checked) (op : Reshape)
    {q : IntPattern} (h : p.reshape op = .ok q) : p.Keeps q op ↔ SplitsPositive op := by
  cases op with
  | split dim inner => exact split_walk_iff hp h
  | permute axes =>
    obtain ⟨r, hr, rfl⟩ := map_eq_ok.1 (mapError_eq_ok.1 h)
    exact iff_of_true ((walk_toInt r).trans (permute_walk hp hr)) trivial
  | merge dim =>
    obtain ⟨r, hr, rfl⟩ := map_eq_ok.1 (mapError_eq_ok.1 h)
    exact iff_of_true ((walk_toInt r).trans (merge_walk hp hr)) trivial
  | coalesce =>
    obtain ⟨r, hr, rfl⟩ := map_eq_ok.1 (mapError_eq_ok.1 h)
    obtain ⟨hwalk, hfewest⟩ := coalesce_walk hp hr
    refine iff_of_true ⟨(walk_toInt r).trans hwalk, ?_⟩ trivial
    rw [toInt, List.length_map]
    exact hfewest
  | repeat_ count =>
    obtain ⟨r, hr, rfl⟩ := map_eq_ok.1 (mapError_eq_ok.1 h)
    exact iff_of_true ((walk_toInt r).trans (repeat_walk hr)) trivial
  | tile tileDims =>
    obtain ⟨r, hr, rfl⟩ := map_eq_ok.1 (mapError_eq_ok.1 h)
    exact iff_of_true ((walk_toInt r).trans (tile_walk hp hr)) trivial
  | partition parts dim =>
    obtain ⟨r, hr, rfl⟩ := map_eq_ok.1 (mapError_eq_ok.1 h)
    exact iff_of_true ((walk_toInt r).trans (partition_walk hp hr)) trivial

def rowOfFour : TensorAccessPattern := ⟨[4], 0, [4], [1], none⟩

theorem rowOfFour_checked : rowOfFour.Checked := ⟨by decide, by decide, by decide⟩

theorem rowOfFour_split_negative :
    rowOfFour.reshape (.split 0 (-2)) = .ok ⟨[4], 0, [-2, -2], [-2, 1]⟩ ∧
      ¬rowOfFour.Keeps ⟨[4], 0, [-2, -2], [-2, 1]⟩ (.split 0 (-2)) :=
  ⟨by decide, fun h => absurd (show IntPattern.walk _ = rowOfFour.walk from h) (by decide)⟩

theorem rowOfFour_split_keeps_iff :
    rowOfFour.Keeps ⟨[4], 0, [2, 2], [2, 1]⟩ (.split 0 2) ↔ SplitsPositive (.split 0 2) :=
  reshape_keeps_iff rowOfFour rowOfFour_checked (.split 0 2) (by decide)

end TensorAccessPattern

end MlirAie.Tap
