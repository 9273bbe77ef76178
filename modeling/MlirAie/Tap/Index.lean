import MlirAie.Lib.Lists
import MlirAie.Lib.NdArray

/-!
# Indexing an access pattern

* `getitem`: `p[key]`, which restricts the walk;
* `array`: the visited elements, shaped by the sizes;
* **`getitem_walks`**: `p[key]` is NumPy's indexing of the walk.
-/

namespace MlirAie.Tap

open MlirAie.Lib

/-! ## Patterns -/

inductive PyError where
  | IndexError (message : String)
  | ValueError (message : String)
  deriving DecidableEq

structure TensorAccessPattern where
  tensorDims : List ℕ
  offset : ℤ
  sizes : List ℕ
  strides : List ℤ
  padding : Option (List (ℕ × ℕ))
  deriving DecidableEq

def zero_leading_unit_strides : List ℕ → List ℤ → List ℤ
  | n :: m :: sizes, t :: strides =>
    if n ≠ 1 then t :: strides else 0 :: zero_leading_unit_strides (m :: sizes) strides
  | _, strides => strides

namespace TensorAccessPattern

/-- `TensorAccessPattern._raw`. -/
def raw (tensorDims : List ℕ) (offset : ℤ) (sizes : List ℕ) (strides : List ℤ)
    (padding : Option (List (ℕ × ℕ))) : TensorAccessPattern :=
  ⟨tensorDims, offset, sizes, zero_leading_unit_strides sizes strides, padding⟩

/-- `_with`. -/
def withWalk (p : TensorAccessPattern) (offset : ℤ) (sizes : List ℕ) (strides : List ℤ) :
    Except PyError TensorAccessPattern :=
  if p.padding.isSome then
    .error (.ValueError "a padded pattern cannot be reshaped further; apply pad() last")
  else .ok (raw p.tensorDims offset sizes strides none)

def rank (p : TensorAccessPattern) : ℕ := p.sizes.length

/-- **The flat indices of the elements that are visited**, in order. -/
def walk (p : TensorAccessPattern) : List ℤ := (offsets p.sizes p.strides).map (p.offset + ·)

/-- The visited elements, shaped by the sizes. -/
def array (p : TensorAccessPattern) : NdArray ℤ := ⟨p.sizes, fun js => p.offset + dot p.strides js⟩

structure Checked (p : TensorAccessPattern) : Prop where
  nonempty : p.sizes ≠ []
  length_eq : p.sizes.length = p.strides.length
  one_le : ∀ n ∈ p.sizes, 1 ≤ n

end TensorAccessPattern

/-! ## Keys -/

def fullSlice : Entry := .slice ⟨none, none, none⟩

/-- The entries of a key, one for each dimension that is left, and for each new one. -/
def expandKey (rank : ℕ) (entries : List Entry) : Except PyError (List Entry) :=
  if 1 < entries.count .ellipsis then
    .error (.IndexError "an index can only have a single ellipsis ('...')")
  else
    let covered := entries.countP fun k => k ≠ .ellipsis ∧ k ≠ .newaxis
    if rank < covered then
      .error (.IndexError ("too many indices for a pattern of rank " ++ toString rank))
    else
      let at' := entries.idxOf .ellipsis
      .ok (entries.take at' ++ List.replicate (rank - covered) fullSlice ++ entries.drop (at' + 1))

def showBound : Option ℤ → String
  | none => "None"
  | some b => toString b

def reprSlice (s : Slice) : String :=
  "slice(" ++ showBound s.start ++ ", " ++ showBound s.stop ++ ", " ++ showBound s.step ++ ")"

/-- A bound as Python's `slice.indices` adjusts it, for a positive step. -/
def adjustBound (n : ℕ) (b : ℤ) : ℤ :=
  if b < 0 then (if b + n < 0 then 0 else b + n) else if n ≤ b then n else b

/-- `len(range(start, stop, step))` for a positive step. -/
def rangeLen (start stop step : ℤ) : ℤ :=
  if start < stop then (stop - start - 1) / step + 1 else 0

/-- The offset, the sizes and the strides so far. -/
structure Walk where
  offset : ℤ
  sizes : List ℕ
  strides : List ℤ
  deriving DecidableEq

/-- One slice, on a dimension of size `n` and stride `s`. -/
def restrictSlice (sl : Slice) (n : ℕ) (s : ℤ) (w : Walk) : Except PyError Walk :=
  let step := sl.step.getD 1
  if step ≤ 0 then .error (.ValueError ("slice step must be positive, got " ++ toString step))
  else if sl.start = none ∧ sl.stop = none ∧ step = 1 then
    .ok { w with sizes := w.sizes ++ [n], strides := w.strides ++ [s] }
  else
    let start := adjustBound n (sl.start.getD 0)
    let stop := adjustBound n (sl.stop.getD n)
    let extent := rangeLen start stop step
    if extent ≤ 0 then
      .error (.ValueError ("slice " ++ reprSlice sl ++
        " selects no elements on a dimension of " ++ toString n))
    else
      .ok ⟨w.offset + start * s, w.sizes ++ [extent.toNat], w.strides ++ [s * step]⟩

/-- The loop over the entries, with the dimensions that are left. -/
def restrict : List Entry → List (ℕ × ℤ) → Walk → Except PyError Walk
  | [], _, w => .ok w
  | .newaxis :: entries, dims, w =>
    restrict entries dims { w with sizes := w.sizes ++ [1], strides := w.strides ++ [0] }
  | .slice sl :: entries, (n, s) :: dims, w => do
    let w ← restrictSlice sl n s w
    restrict entries dims w
  | .integer i :: entries, (n, s) :: dims, w =>
    if -n ≤ i ∧ i < n then
      restrict entries dims { w with offset := w.offset + (if i < 0 then i + n else i) * s }
    else
      .error (.IndexError ("index " ++ toString i ++ " is out of bounds for a dimension of " ++
        toString n))
  | _, _, _ => .error (.IndexError "tuple index out of range")

namespace TensorAccessPattern

/-- **`p[key]`**, for a key of integers, slices, ellipses and new axes. -/
def getitem (p : TensorAccessPattern) (key : List Entry) : Except PyError TensorAccessPattern := do
  let entries ← expandKey p.rank key
  let w ← restrict entries (p.sizes.zip p.strides) ⟨p.offset, [], []⟩
  if w.sizes.isEmpty then p.withWalk w.offset [1] [1]
  else p.withWalk w.offset w.sizes w.strides

end TensorAccessPattern

/-! ## One slice -/

theorem adjustBound_eq (n : ℕ) (b : ℤ) : adjustBound n b = Slice.bound n b := by
  unfold adjustBound Slice.bound
  split_ifs <;> omega

theorem adjustBound_start (n : ℕ) (start : Option ℤ) :
    adjustBound n (start.getD 0) = start.elim 0 (Slice.bound n) := by
  cases start with
  | none =>
    simp only [Option.getD_none, Option.elim_none, adjustBound]
    split_ifs <;> omega
  | some b => exact adjustBound_eq n b

theorem adjustBound_stop (n : ℕ) (stop : Option ℤ) :
    adjustBound n (stop.getD n) = stop.elim (n : ℤ) (Slice.bound n) := by
  cases stop with
  | none =>
    simp only [Option.getD_none, Option.elim_none, adjustBound]
    split_ifs <;> omega
  | some b => exact adjustBound_eq n b

theorem rangeLen_eq {start stop step : ℤ} (hstep : 0 < step) :
    rangeLen start stop step = steps start stop step := by
  unfold rangeLen steps
  split_ifs with h
  · have hdiv : 0 ≤ (stop - start - 1) / step := Int.ediv_nonneg (by omega) hstep.le
    omega
  · rfl

theorem selected_full (n : ℕ) : (⟨none, none, none⟩ : Slice).selected n = List.range n := by
  unfold Slice.selected
  refine List.filter_eq_self.2 fun x hx => ?_
  have hlt := List.mem_range.1 hx
  exact decide_eq_true ⟨Int.natCast_nonneg x, Int.ofNat_lt.2 hlt, one_dvd _⟩

/-- What a slice adds to the walk: as many elements as it selects, at their places. -/
def SliceWalks (sl : Slice) (n : ℕ) (s : ℤ) (w w' : Walk) : Prop :=
  ∃ d t, w' = ⟨w.offset + d, w.sizes ++ [(sl.selected n).length], w.strides ++ [t]⟩ ∧
    ∀ i < (sl.selected n).length, d + i * t = ((sl.selected n).getD i 0 : ℕ) * s

theorem restrictSlice_eq {sl : Slice} {n : ℕ} (hn : 1 ≤ n) (hstep : 0 < sl.step.getD 1) (s : ℤ)
    (w : Walk) :
    if sl.selected n = [] then ∃ e, restrictSlice sl n s w = .error e
    else ∃ w', restrictSlice sl n s w = .ok w' ∧ SliceWalks sl n s w w' := by
  have hselected := sl.selected_eq n hstep
  have hlo : 0 ≤ sl.start.elim 0 (Slice.bound n) := by
    cases sl.start with
    | none => exact le_rfl
    | some b => exact (Slice.bound_mem n b).1
  unfold restrictSlice
  simp only
  rw [if_neg (not_le.2 hstep), adjustBound_start, adjustBound_stop, rangeLen_eq hstep]
  by_cases hfull : sl.start = none ∧ sl.stop = none ∧ sl.step.getD 1 = 1
  · rw [if_pos hfull]
    have hrange : sl.selected n = List.range n := by
      obtain ⟨hstart, hstop, hone⟩ := hfull
      rw [← selected_full n]
      unfold Slice.selected
      rw [hstart, hstop, hone]
      rfl
    rw [hrange, if_neg (by simpa using (by omega : n ≠ 0))]
    refine ⟨_, rfl, 0, s, by simp [hrange], fun i hi => ?_⟩
    rw [hrange] at hi ⊢
    rw [zero_add, List.getD_eq_getElem _ _ hi, List.getElem_range]
  · rw [if_neg hfull]
    generalize sl.start.elim 0 (Slice.bound n) = lo at *
    generalize sl.stop.elim (n : ℤ) (Slice.bound n) = stop at *
    by_cases hnone : steps lo stop (sl.step.getD 1) = 0
    · rw [hnone, List.range_zero, List.map_nil] at hselected
      rw [if_pos hselected, hnone]
      exact ⟨_, if_pos le_rfl⟩
    · rw [if_neg (by rw [hselected]; simpa using hnone),
        if_neg (by have := Nat.pos_of_ne_zero hnone; omega)]
      refine ⟨_, rfl, lo * s, s * sl.step.getD 1, by simp [hselected], fun i hi => ?_⟩
      have hnonneg : 0 ≤ (i : ℤ) * sl.step.getD 1 :=
        mul_nonneg (Int.natCast_nonneg i) hstep.le
      rw [List.getD_eq_getElem _ _ hi]
      simp only [hselected, List.getElem_map, List.getElem_range]
      rw [Int.toNat_of_nonneg (by omega)]
      ring

/-! ## The loop -/

/-- The loop went on from `w` to `w'` by the places of a selection of the dimensions. -/
def Walks (w w' : Walk) (dims : List (ℕ × ℤ)) (sel : Selection) : Prop :=
  ∃ d ts, w' = ⟨w.offset + d, w.sizes ++ sel.shape, w.strides ++ ts⟩ ∧
    sel.shape.length = ts.length ∧ (∀ n ∈ sel.shape, n ≠ 0) ∧
    ∀ js ∈ indices sel.shape, d + dot ts js = dot (dims.map Prod.snd) (sel.source js)

/-- **The loop over the entries does what is selected**: it comes through where something is, and
then walks the selection. -/
def Follows (sel? : Option Selection) (entries : List Entry) (dims : List (ℕ × ℤ)) : Prop :=
  ∀ w, (∀ w', restrict entries dims w = .ok w' → ∃ sel, sel? = some sel ∧ Walks w w' dims sel) ∧
    ∀ sel, sel? = some sel → (∀ n ∈ sel.shape, n ≠ 0) → ∃ w', restrict entries dims w = .ok w'

theorem follows_nil : Follows (select [] []) [] [] := by
  intro w
  refine ⟨fun w' h => ⟨_, rfl, 0, [], ?_⟩, fun _ _ _ => ⟨w, rfl⟩⟩
  cases h
  refine ⟨by simp, rfl, List.forall_mem_nil _, fun js _ => ?_⟩
  rw [zero_add]
  exact (dot_nil []).symm

theorem Follows.newaxis {sel? : Option Selection} {entries : List Entry} {dims : List (ℕ × ℤ)}
    (h : Follows sel? entries dims) :
    Follows (sel?.map fun s => ⟨1 :: s.shape, fun js => s.source js.tail⟩)
      (.newaxis :: entries) dims := by
  intro w
  obtain ⟨hwalk, hok⟩ := h ⟨w.offset, w.sizes ++ [1], w.strides ++ [0]⟩
  constructor
  · intro w' hw'
    obtain ⟨sel, rfl, d, ts, rfl, hlen, hpos, hplace⟩ := hwalk w' hw'
    refine ⟨_, rfl, d, 0 :: ts, by simp, by simp [hlen],
      List.forall_mem_cons.2 ⟨one_ne_zero, hpos⟩, fun js hjs => ?_⟩
    obtain ⟨i, js', -, hjs', rfl⟩ := mem_indices_cons.1 hjs
    rw [dot_cons, mul_zero, zero_add, hplace js' hjs']
    rfl
  · intro sel hsel hpos
    obtain ⟨sel', rfl, rfl⟩ := Option.map_eq_some_iff.1 hsel
    exact hok sel' rfl (List.forall_mem_cons.1 hpos).2

theorem Follows.integer {sel? : Option Selection} {entries : List Entry} {dims : List (ℕ × ℤ)}
    (h : Follows sel? entries dims) (i : ℤ) (n : ℕ) (s : ℤ) :
    Follows (if -n ≤ i ∧ i < n then
        sel?.map fun t => ⟨t.shape, fun js => wrapIndex n i :: t.source js⟩ else none)
      (.integer i :: entries) ((n, s) :: dims) := by
  intro w
  rw [restrict]
  by_cases hi : -n ≤ i ∧ i < n
  · rw [if_pos hi, if_pos hi]
    obtain ⟨hwalk, hok⟩ := h ⟨w.offset + (if i < 0 then i + n else i) * s, w.sizes, w.strides⟩
    have hwrap : ((wrapIndex n i : ℕ) : ℤ) = if i < 0 then i + n else i := by
      unfold wrapIndex
      split_ifs <;> omega
    constructor
    · intro w' hw'
      obtain ⟨sel, rfl, d, ts, rfl, hlen, hpos, hplace⟩ := hwalk w' hw'
      refine ⟨_, rfl, (if i < 0 then i + n else i) * s + d, ts, by simp [add_assoc], hlen, hpos,
        fun js hjs => ?_⟩
      rw [List.map_cons, dot_cons, hwrap, ← hplace js hjs, add_assoc]
    · intro sel hsel hpos
      obtain ⟨sel', rfl, rfl⟩ := Option.map_eq_some_iff.1 hsel
      exact hok sel' rfl hpos
  · rw [if_neg hi, if_neg hi]
    constructor
    · intro w' hw'
      cases hw'
    · intro sel hsel
      cases hsel

theorem Follows.slice {sel? : Option Selection} {entries : List Entry} {dims : List (ℕ × ℤ)}
    (h : Follows sel? entries dims) {sl : Slice} (hstep : 0 < sl.step.getD 1) {n : ℕ} (hn : 1 ≤ n)
    (s : ℤ) :
    Follows (sel?.map fun t => ⟨(sl.selected n).length :: t.shape,
        fun js => (sl.selected n).getD js.headI 0 :: t.source js.tail⟩)
      (.slice sl :: entries) ((n, s) :: dims) := by
  intro w
  have hslice := restrictSlice_eq hn hstep s w
  rw [restrict]
  by_cases hnone : sl.selected n = []
  · rw [if_pos hnone] at hslice
    obtain ⟨e, he⟩ := hslice
    rw [he]
    constructor
    · intro w' hw'
      cases hw'
    · intro sel hsel hpos
      obtain ⟨sel', rfl, rfl⟩ := Option.map_eq_some_iff.1 hsel
      refine absurd ?_ (List.forall_mem_cons.1 hpos).1
      rw [hnone]
      rfl
  · rw [if_neg hnone] at hslice
    obtain ⟨w₁, hw₁, d₁, t, rfl, hplace₁⟩ := hslice
    rw [hw₁]
    obtain ⟨hwalk, hok⟩ := h ⟨w.offset + d₁, w.sizes ++ [(sl.selected n).length], w.strides ++ [t]⟩
    constructor
    · intro w' hw'
      obtain ⟨sel, rfl, d, ts, rfl, hlen, hpos, hplace⟩ := hwalk w' hw'
      refine ⟨_, rfl, d₁ + d, t :: ts, by simp [add_assoc], by simp [hlen],
        List.forall_mem_cons.2 ⟨fun h => hnone (List.length_eq_zero_iff.1 h), hpos⟩,
        fun js hjs => ?_⟩
      obtain ⟨i, js', hi, hjs', rfl⟩ := mem_indices_cons.1 hjs
      rw [List.map_cons, dot_cons, dot_cons, List.tail_cons, List.headI_cons, ← hplace₁ i hi,
        ← hplace js' hjs']
      ring
    · intro sel hsel hpos
      obtain ⟨sel', rfl, rfl⟩ := Option.map_eq_some_iff.1 hsel
      exact hok sel' rfl (List.forall_mem_cons.1 hpos).2

/-- Only the elements of the selection count. -/
theorem Follows.congr {sel? : Option Selection} {entries : List Entry} {dims : List (ℕ × ℤ)}
    {f g : Selection → Selection} (h : Follows (sel?.map f) entries dims)
    (hfg : ∀ s, (f s).shape = (g s).shape ∧
      ∀ js ∈ indices (f s).shape, (f s).source js = (g s).source js) :
    Follows (sel?.map g) entries dims := by
  intro w
  obtain ⟨hwalk, hok⟩ := h w
  constructor
  · intro w' hw'
    obtain ⟨sel, hsel, d, ts, rfl, hlen, hpos, hplace⟩ := hwalk w' hw'
    obtain ⟨s, rfl, rfl⟩ := Option.map_eq_some_iff.1 hsel
    obtain ⟨hshape, hsource⟩ := hfg s
    refine ⟨g s, rfl, d, ts, by rw [hshape], hshape ▸ hlen, hshape ▸ hpos, fun js hjs => ?_⟩
    rw [← hshape] at hjs
    rw [hplace js hjs, hsource js hjs]
  · intro sel hsel hpos
    obtain ⟨s, rfl, rfl⟩ := Option.map_eq_some_iff.1 hsel
    exact hok (f s) rfl ((hfg s).1 ▸ hpos)

/-- Whole dimensions before what is selected. -/
theorem Follows.fill {sel? : Option Selection} {entries : List Entry} {dims : List (ℕ × ℤ)}
    {k : ℕ} (hk : k ≤ dims.length) (hdims : ∀ d ∈ dims, 1 ≤ d.1)
    (h : Follows sel? entries (dims.drop k)) :
    Follows (sel?.map fun s => ⟨(dims.map Prod.fst).take k ++ s.shape,
        fun js => js.take k ++ s.source (js.drop k)⟩)
      (List.replicate k fullSlice ++ entries) dims := by
  induction k generalizing dims with
  | zero =>
    refine Follows.congr (f := id) ?_ fun s => ⟨rfl, fun js _ => rfl⟩
    rw [Option.map_id]
    exact h
  | succ k ih =>
    obtain _ | ⟨⟨n, s⟩, dims⟩ := dims
    · simp at hk
    · have hrest := ih (by simpa using hk) (fun d hd => hdims d (List.mem_cons_of_mem _ hd)) h
      have hslice := @Follows.slice _ _ _ hrest ⟨none, none, none⟩ one_pos n
        (hdims _ List.mem_cons_self) s
      rw [Option.map_map] at hslice
      refine hslice.congr fun t => ?_
      rw [selected_full]
      refine ⟨by simp, fun js hjs => ?_⟩
      obtain ⟨i, js', hi, -, rfl⟩ := mem_indices_cons.1 hjs
      rw [List.length_range] at hi
      simp [hi]

/-! ## The key -/

def PositiveSteps (key : List Entry) : Prop := ∀ sl, .slice sl ∈ key → 0 < sl.step.getD 1

/-- Entries before what is followed. -/
theorem follows_append {front key entries : List Entry} {dims : List (ℕ × ℤ)}
    (hsteps : PositiveSteps front) (hfront : .ellipsis ∉ front) (hdims : ∀ d ∈ dims, 1 ≤ d.1)
    (hcount : front.countP Entry.takes ≤ dims.length)
    (h : Follows (select key ((dims.drop (front.countP Entry.takes)).map Prod.fst)) entries
      (dims.drop (front.countP Entry.takes))) :
    Follows (select (front ++ key) (dims.map Prod.fst)) (front ++ entries) dims := by
  induction front generalizing dims with
  | nil => exact h
  | cons e front ih =>
    have hsteps' : PositiveSteps front := fun sl hsl => hsteps sl (List.mem_cons_of_mem _ hsl)
    have hfront' : .ellipsis ∉ front := fun hmem => hfront (List.mem_cons_of_mem _ hmem)
    cases e with
    | ellipsis => exact absurd List.mem_cons_self hfront
    | newaxis => exact (ih hsteps' hfront' hdims hcount h).newaxis
    | integer i =>
      rw [List.countP_cons_of_pos rfl] at hcount h
      obtain _ | ⟨⟨n, s⟩, dims⟩ := dims
      · simp at hcount
      · exact (ih hsteps' hfront' (fun d hd => hdims d (List.mem_cons_of_mem _ hd))
          (by simpa using hcount) h).integer i n s
    | slice sl =>
      rw [List.countP_cons_of_pos rfl] at hcount h
      obtain _ | ⟨⟨n, s⟩, dims⟩ := dims
      · simp at hcount
      · exact (ih hsteps' hfront' (fun d hd => hdims d (List.mem_cons_of_mem _ hd))
          (by simpa using hcount) h).slice (hsteps sl List.mem_cons_self)
            (hdims _ List.mem_cons_self) s

theorem takes_eq :
    (fun e : Entry => decide (e ≠ .ellipsis ∧ e ≠ .newaxis)) = Entry.takes := by
  funext e
  cases e <;> rfl

/-- Whole dimensions at the end. -/
theorem follows_rest {dims : List (ℕ × ℤ)} (hdims : ∀ d ∈ dims, 1 ≤ d.1) :
    Follows (select [] (dims.map Prod.fst)) (List.replicate dims.length fullSlice) dims := by
  have hnil : Follows (select [] []) [] (dims.drop dims.length) := by
    rw [List.drop_length]
    exact follows_nil
  have h := hnil.fill le_rfl hdims
  rw [List.append_nil] at h
  have hselect : (select [] []).map (fun s => ⟨(dims.map Prod.fst).take dims.length ++ s.shape,
      fun js => js.take dims.length ++ s.source (js.drop dims.length)⟩) =
        select [] (dims.map Prod.fst) := by
    simp only [select, Option.map_some, Option.some_inj, Selection.mk.injEq]
    constructor
    · rw [List.append_nil, List.take_of_length_le (by simp)]
    · funext js
      exact List.take_append_drop dims.length js
  rwa [hselect] at h

theorem select_eq_none {key : List Entry} {shape : List ℕ}
    (h : shape.length < key.countP Entry.takes) : select key shape = none := by
  induction key generalizing shape with
  | nil => simp at h
  | cons e key ih =>
    cases e with
    | newaxis => rw [select, ih h, Option.map_none]
    | ellipsis =>
      rw [List.countP_cons_of_neg (by decide)] at h
      have hdrop : (shape.drop (shape.length - key.countP Entry.takes)).length <
          key.countP Entry.takes := by
        rw [List.length_drop]
        omega
      rw [select, ih hdrop, Option.map_none]
    | integer i =>
      rw [List.countP_cons_of_pos rfl] at h
      cases shape with
      | nil => rfl
      | cons n shape =>
        rw [select, ih (by simpa using h)]
        split <;> rfl
    | slice sl =>
      rw [List.countP_cons_of_pos rfl] at h
      cases shape with
      | nil => rfl
      | cons n shape => rw [select, ih (by simpa using h), Option.map_none]

/-- Entries without an ellipsis that take all dimensions. -/
theorem follows_plain {entries : List Entry} {dims : List (ℕ × ℤ)} (hsteps : PositiveSteps entries)
    (hplain : .ellipsis ∉ entries) (hdims : ∀ d ∈ dims, 1 ≤ d.1)
    (hcount : dims.length = entries.countP Entry.takes) :
    Follows (select entries (dims.map Prod.fst)) entries dims := by
  have hnil : dims.drop (entries.countP Entry.takes) = [] := by
    rw [← hcount, List.drop_length]
  have hrest : Follows (select [] ((dims.drop (entries.countP Entry.takes)).map Prod.fst)) []
      (dims.drop (entries.countP Entry.takes)) := by
    rw [hnil]
    exact follows_nil
  have h := follows_append hsteps hplain hdims hcount.ge hrest
  rwa [List.append_nil] at h

/-- **The entries of a key follow its selection.** -/
theorem follows_expandKey {key entries : List Entry} {dims : List (ℕ × ℤ)}
    (hsteps : PositiveSteps key) (hdims : ∀ d ∈ dims, 1 ≤ d.1)
    (h : expandKey dims.length key = .ok entries) :
    Follows (select key (dims.map Prod.fst)) entries dims := by
  unfold expandKey at h
  simp only [takes_eq] at h
  split_ifs at h with hcount hrank
  cases h
  rw [not_lt] at hcount hrank
  have hdrop : ∀ k, ∀ d ∈ dims.drop k, 1 ≤ d.1 := fun k d hd => hdims d (List.mem_of_mem_drop hd)
  by_cases hmem : Entry.ellipsis ∈ key
  · obtain ⟨front, back, rfl, hfront⟩ := List.eq_append_cons_of_mem hmem
    have hback : Entry.ellipsis ∉ back := by
      rw [List.count_append, List.count_cons_self] at hcount
      exact List.count_eq_zero.1 (by omega)
    have hdropKey : (front ++ .ellipsis :: back).drop (front.length + 1) = back := by
      rw [← List.drop_drop, List.drop_left, List.drop_succ_cons, List.drop_zero]
    rw [List.countP_append, List.countP_cons_of_neg (by decide)] at hrank ⊢
    rw [List.idxOf_append_of_notMem hfront, List.idxOf_cons_self, Nat.add_zero,
      List.take_left, hdropKey, List.append_assoc]
    refine follows_append (fun sl hsl => hsteps sl (List.mem_append_left _ hsl)) hfront hdims
      (le_trans (Nat.le_add_right _ _) hrank) ?_
    have hlen : (dims.drop (front.countP Entry.takes)).length =
        dims.length - front.countP Entry.takes := List.length_drop
    have hdrop' := hdrop (front.countP Entry.takes)
    generalize dims.drop (front.countP Entry.takes) = rest at *
    have hk : dims.length - (front.countP Entry.takes + back.countP Entry.takes) =
        rest.length - back.countP Entry.takes := by
      rw [hlen, Nat.sub_sub]
    have hrest : back.countP Entry.takes ≤ rest.length := by
      rw [hlen]
      omega
    have hback' := @follows_plain back (rest.drop (rest.length - back.countP Entry.takes))
      (fun sl hsl => hsteps sl (List.mem_append_right _ (List.mem_cons_of_mem _ hsl))) hback
      (fun d hd => hdrop' d (List.mem_of_mem_drop hd)) (by
        rw [List.length_drop]
        omega)
    rw [hk, select, List.length_map, ← List.map_drop]
    exact hback'.fill (Nat.sub_le _ _) hdrop'
  · rw [List.idxOf_eq_length hmem, List.take_length, List.drop_eq_nil_of_le (by omega),
      List.append_nil]
    have hlen : (dims.drop (key.countP Entry.takes)).length =
        dims.length - key.countP Entry.takes := List.length_drop
    have hrest := follows_rest (hdrop (key.countP Entry.takes))
    rw [hlen] at hrest
    have hfill := follows_append hsteps hmem hdims hrank hrest
    rwa [List.append_nil] at hfill

/-! ## The pattern -/

theorem length_zero_leading_unit_strides (sizes : List ℕ) (strides : List ℤ) :
    (zero_leading_unit_strides sizes strides).length = strides.length := by
  induction sizes, strides using zero_leading_unit_strides.induct with
  | case1 n m sizes t strides h => rw [zero_leading_unit_strides, if_pos h]
  | case2 n m sizes t strides h ih =>
    rw [zero_leading_unit_strides, if_neg h, List.length_cons, ih, List.length_cons]
  | case3 sizes strides h => rw [zero_leading_unit_strides]; exact h

theorem offsets_zero_leading_unit_strides (sizes : List ℕ) (strides : List ℤ) :
    offsets sizes (zero_leading_unit_strides sizes strides) = offsets sizes strides := by
  induction sizes, strides using zero_leading_unit_strides.induct with
  | case1 n m sizes t strides h => rw [zero_leading_unit_strides, if_pos h]
  | case2 n m sizes t strides h ih =>
    obtain rfl : n = 1 := not_not.1 h
    rw [zero_leading_unit_strides, if_neg h, offsets_one_cons, offsets_one_cons, ih]
  | case3 sizes strides h => rw [zero_leading_unit_strides]; exact h

namespace TensorAccessPattern

theorem walk_raw (tensorDims : List ℕ) (offset : ℤ) {sizes : List ℕ} {strides : List ℤ}
    (padding : Option (List (ℕ × ℕ))) (h : sizes.length = strides.length) :
    (raw tensorDims offset sizes strides padding).walk =
      (indices sizes).map fun js => offset + dot strides js := by
  unfold walk raw
  simp only
  rw [offsets_zero_leading_unit_strides, offsets_eq_map h, List.map_map]
  rfl

theorem checked_raw (tensorDims : List ℕ) (offset : ℤ) {sizes : List ℕ} {strides : List ℤ}
    (padding : Option (List (ℕ × ℕ))) (hne : sizes ≠ []) (h : sizes.length = strides.length)
    (hpos : ∀ n ∈ sizes, n ≠ 0) : (raw tensorDims offset sizes strides padding).Checked where
  nonempty := hne
  length_eq := by
    change sizes.length = (zero_leading_unit_strides sizes strides).length
    rw [length_zero_leading_unit_strides, h]
  one_le n hn := Nat.one_le_iff_ne_zero.2 (hpos n hn)

theorem index_eq_some_iff {p : TensorAccessPattern} {key : List Entry} {a : NdArray ℤ} :
    p.array.index key = some a ↔ key.count .ellipsis ≤ 1 ∧ ∃ sel, select key p.sizes = some sel ∧
      a = ⟨sel.shape, fun js => p.offset + dot p.strides (sel.source js)⟩ := by
  unfold NdArray.index
  split_ifs with hcount
  · refine iff_of_false (by simp) fun h => absurd h.1 (not_le.2 hcount)
  · rw [Option.map_eq_some_iff]
    constructor
    · rintro ⟨sel, hsel, rfl⟩
      exact ⟨not_lt.1 hcount, sel, hsel, rfl⟩
    · rintro ⟨-, sel, hsel, rfl⟩
      exact ⟨sel, hsel, rfl⟩

theorem expandKey_eq_ok {key : List Entry} {rank : ℕ} (hcount : key.count .ellipsis ≤ 1)
    (hrank : key.countP Entry.takes ≤ rank) : ∃ entries, expandKey rank key = .ok entries := by
  unfold expandKey
  simp only [takes_eq]
  rw [if_neg (not_lt.2 hcount), if_neg (not_lt.2 hrank)]
  exact ⟨_, rfl⟩

theorem withWalk_ok {p : TensorAccessPattern} (hpadding : p.padding = none) (w : Walk) :
    (if w.sizes.isEmpty then p.withWalk w.offset [1] [1]
      else p.withWalk w.offset w.sizes w.strides) =
        .ok (raw p.tensorDims w.offset (if w.sizes.isEmpty then [1] else w.sizes)
          (if w.sizes.isEmpty then [1] else w.strides) none) := by
  unfold withWalk
  by_cases h : w.sizes.isEmpty = true
  · simp [h, hpadding]
  · simp [h, hpadding]

/-- **A pattern that is accepted** walks the selection. -/
theorem getitem_ok {p q : TensorAccessPattern} {key : List Entry} (hp : p.Checked)
    (hpadding : p.padding = none) (hsteps : PositiveSteps key) (h : p.getitem key = .ok q) :
    q.Checked ∧ q.padding = none ∧
      ∃ a, p.array.index key = some a ∧ a.ravel ≠ [] ∧ q.walk = a.ravel := by
  unfold getitem at h
  obtain ⟨entries, hentries, h⟩ := bind_eq_ok.1 h
  obtain ⟨w, hw, h⟩ := bind_eq_ok.1 h
  rw [withWalk_ok hpadding] at h
  have hfst : (p.sizes.zip p.strides).map Prod.fst = p.sizes := List.map_fst_zip hp.length_eq.le
  have hsnd : (p.sizes.zip p.strides).map Prod.snd = p.strides := List.map_snd_zip hp.length_eq.ge
  have hrank : (p.sizes.zip p.strides).length = p.rank := by
    rw [List.length_zip, ← hp.length_eq, min_self]
    rfl
  have hfollows := follows_expandKey hsteps
    (fun d hd => hp.one_le d.1 (List.of_mem_zip hd).1) (hrank ▸ hentries)
  obtain ⟨sel, hsel, d, ts, rfl, hlen, hpos, hplace⟩ := (hfollows _).1 w hw
  rw [hfst] at hsel
  rw [hsnd] at hplace
  have hcount : key.count .ellipsis ≤ 1 := by
    unfold expandKey at hentries
    split_ifs at hentries with hcount
    exact not_lt.1 hcount
  cases h
  refine ⟨?_, rfl, _, index_eq_some_iff.2 ⟨hcount, sel, hsel, rfl⟩, ?_, ?_⟩
  · cases hshape : sel.shape with
    | nil => exact checked_raw _ _ _ (by simp) (by simp) (by simp)
    | cons n shape =>
      rw [hshape] at hlen hpos
      exact checked_raw _ _ _ (by simp) (by simpa using hlen) (by simpa using hpos)
  · unfold NdArray.ravel
    rw [Ne, List.map_eq_nil_iff]
    exact indices_ne_nil_iff.2 hpos
  · unfold NdArray.ravel
    simp only
    cases hshape : sel.shape with
    | nil =>
      rw [hshape] at hplace
      have hnil := hplace [] (by simp [indices])
      rw [dot_nil, add_zero] at hnil
      rw [List.nil_append, if_pos List.isEmpty_nil, if_pos List.isEmpty_nil, walk_raw _ _ _ rfl]
      simp [indices, dot, hnil]
    | cons n shape =>
      rw [hshape] at hlen hplace
      rw [List.nil_append, List.nil_append, if_neg (by simp), if_neg (by simp),
        walk_raw _ _ _ hlen]
      refine List.map_congr_left fun js hjs => ?_
      rw [← hplace js hjs, add_assoc]

/-- **`p[key]` is NumPy's indexing of the walk.** It is accepted exactly where the visited elements,
shaped by the sizes, can be indexed and leave some; then it visits those, in row-major order, and is
a pattern of the same kind. -/
theorem getitem_walks (p : TensorAccessPattern) (key : List Entry) (hp : p.Checked)
    (hpadding : p.padding = none) (hsteps : PositiveSteps key) :
    (∀ q, p.getitem key = .ok q → q.Checked ∧ q.padding = none ∧
      ∃ a, p.array.index key = some a ∧ a.ravel ≠ [] ∧ q.walk = a.ravel) ∧
    ((∃ q, p.getitem key = .ok q) ↔ ∃ a, p.array.index key = some a ∧ a.ravel ≠ []) := by
  refine ⟨fun q hq => getitem_ok hp hpadding hsteps hq, ?_⟩
  constructor
  · rintro ⟨q, hq⟩
    obtain ⟨-, -, a, ha, hne, -⟩ := getitem_ok hp hpadding hsteps hq
    exact ⟨a, ha, hne⟩
  · rintro ⟨a, ha, hne⟩
    obtain ⟨hcount, sel, hsel, rfl⟩ := index_eq_some_iff.1 ha
    have hrank : (p.sizes.zip p.strides).length = p.rank := by
      rw [List.length_zip, ← hp.length_eq, min_self]
      rfl
    have htakes : key.countP Entry.takes ≤ p.rank := by
      by_contra hlt
      rw [select_eq_none (not_le.1 hlt)] at hsel
      cases hsel
    obtain ⟨entries, hentries⟩ := expandKey_eq_ok hcount htakes
    have hfollows := follows_expandKey hsteps
      (fun d hd => hp.one_le d.1 (List.of_mem_zip hd).1) (hrank ▸ hentries)
    rw [List.map_fst_zip hp.length_eq.le] at hfollows
    have hpos : ∀ n ∈ sel.shape, n ≠ 0 := by
      unfold NdArray.ravel at hne
      rw [Ne, List.map_eq_nil_iff] at hne
      exact indices_ne_nil_iff.1 hne
    obtain ⟨w, hw⟩ := (hfollows ⟨p.offset, [], []⟩).2 sel hsel hpos
    refine ⟨_, bind_eq_ok.2 ⟨entries, hentries, bind_eq_ok.2 ⟨w, hw, withWalk_ok hpadding w⟩⟩⟩

def sevenByNine : TensorAccessPattern := ⟨[7, 9], 0, [7, 9], [9, 1], none⟩

theorem sevenByNine_checked : sevenByNine.Checked := ⟨by decide, by decide, by decide⟩

/-- Every other row, and the columns from the second on in steps of three. -/
def everyOther : List Entry := [.slice ⟨none, none, some 2⟩, .slice ⟨some 1, none, some 3⟩]

example : sevenByNine.getitem everyOther = .ok ⟨[7, 9], 1, [4, 3], [18, 3], none⟩ := by rfl

theorem everyOther_positiveSteps : PositiveSteps everyOther := by
  intro sl hsl
  simp only [everyOther, List.mem_cons, List.not_mem_nil, or_false, Entry.slice.injEq] at hsl
  rcases hsl with rfl | rfl
  · decide
  · decide

theorem everyOther_walks :
    (∀ q, sevenByNine.getitem everyOther = .ok q → q.Checked ∧ q.padding = none ∧
      ∃ a, sevenByNine.array.index everyOther = some a ∧ a.ravel ≠ [] ∧ q.walk = a.ravel) ∧
    ((∃ q, sevenByNine.getitem everyOther = .ok q) ↔
      ∃ a, sevenByNine.array.index everyOther = some a ∧ a.ravel ≠ []) :=
  getitem_walks sevenByNine everyOther sevenByNine_checked rfl everyOther_positiveSteps

end TensorAccessPattern

end MlirAie.Tap
