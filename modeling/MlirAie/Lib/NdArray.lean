import MlirAie.Lib.Strided

/-!
# Arrays of several dimensions, and NumPy's basic indexing

* **`Slice.selected_eq`**: a slice selects evenly spaced indices;
* `offsets_eq_map`: strided offsets, by the index;
* `FlatArray.reshape`, `FlatArray.transpose`: the elements by their numbers in another shape, and
  with the axes in another order; **`transposeData_transposeData`**: transposing back.
-/

namespace MlirAie.Lib

/-! ## Arrays -/

def indices : List ℕ → List (List ℕ)
  | [] => [[]]
  | n :: shape => (List.range n).flatMap fun i => (indices shape).map (i :: ·)

structure NdArray (α : Type*) where
  shape : List ℕ
  get : List ℕ → α

def NdArray.ravel {α : Type*} (a : NdArray α) : List α := (indices a.shape).map a.get

theorem indices_nil : indices [] = [[]] := rfl

theorem mem_indices_cons {n : ℕ} {shape js : List ℕ} :
    js ∈ indices (n :: shape) ↔ ∃ i js', i < n ∧ js' ∈ indices shape ∧ js = i :: js' := by
  simp only [indices, List.mem_flatMap, List.mem_map, List.mem_range]
  constructor
  · rintro ⟨i, hi, js', hjs', rfl⟩
    exact ⟨i, js', hi, hjs', rfl⟩
  · rintro ⟨i, js', hi, hjs', rfl⟩
    exact ⟨i, hi, js', hjs', rfl⟩

theorem indices_ne_nil_iff {shape : List ℕ} : indices shape ≠ [] ↔ ∀ n ∈ shape, n ≠ 0 := by
  induction shape with
  | nil => simp [indices]
  | cons n shape ih =>
    rw [List.forall_mem_cons, ← ih, Ne, Ne, indices, List.flatMap_eq_nil_iff]
    simp only [List.mem_range, List.map_eq_nil_iff]
    constructor
    · intro h
      refine ⟨fun hn => h fun i hi => absurd hi (by omega), fun hnil => h fun _ _ => hnil⟩
    · rintro ⟨hn, hne⟩ h
      exact hne (h 0 (by omega))

/-! ## Strides -/

section Dot

variable {R : Type*} [CommRing R]

/-- The place of an index. -/
def dot : List R → List ℕ → R
  | t :: ts, i :: js => i * t + dot ts js
  | _, _ => 0

theorem dot_cons (t : R) (ts : List R) (i : ℕ) (js : List ℕ) :
    dot (t :: ts) (i :: js) = i * t + dot ts js := rfl

theorem dot_nil (ts : List R) : dot ts [] = 0 := by
  cases ts <;> rfl

theorem offsets_eq_map {ns : List ℕ} {ts : List R} (h : ns.length = ts.length) :
    offsets ns ts = (indices ns).map (dot ts) := by
  induction ns generalizing ts with
  | nil =>
    cases ts with
    | nil => rfl
    | cons t ts => simp at h
  | cons n ns ih =>
    cases ts with
    | nil => simp at h
    | cons t ts =>
      rw [offsets_cons, ih (by simpa using h), nest, run, indices, List.flatMap_map,
        List.map_flatMap]
      congr 1
      funext i
      simp only [List.map_map]
      refine List.map_congr_left fun js _ => ?_
      simp [dot_cons]

end Dot

/-! ## Keys -/

structure Slice where
  start : Option ℤ
  stop : Option ℤ
  step : Option ℤ
  deriving DecidableEq

/-- What a key of basic indexing is made of. -/
inductive Entry where
  | integer (i : ℤ)
  | slice (s : Slice)
  | ellipsis
  | newaxis
  deriving DecidableEq

/-- A bound counts from the end where it is negative, and is clipped. -/
def Slice.bound (n : ℕ) (b : ℤ) : ℤ := if b < 0 then max 0 (b + n) else min b n

/-- The indices that a slice with a positive step selects on a dimension. -/
def Slice.selected (s : Slice) (n : ℕ) : List ℕ :=
  let lo := s.start.elim 0 (bound n)
  let hi := s.stop.elim (n : ℤ) (bound n)
  (List.range n).filter fun x => lo ≤ x ∧ x < hi ∧ s.step.getD 1 ∣ x - lo

def Entry.takes : Entry → Bool
  | integer _ => true
  | slice _ => true
  | ellipsis => false
  | newaxis => false

/-- The shape of an indexed array, and where its elements come from. -/
structure Selection where
  shape : List ℕ
  source : List ℕ → List ℕ

/-- An index into a dimension, negative from the end. -/
def wrapIndex (n : ℕ) (i : ℤ) : ℕ := (if i < 0 then i + n else i).toNat

/-- **Basic indexing.** Dimensions past the key are taken whole, and an ellipsis takes whole all
that the rest of the key does not take. -/
def select : List Entry → List ℕ → Option Selection
  | [], shape => some ⟨shape, id⟩
  | .newaxis :: key, shape =>
    (select key shape).map fun s => ⟨1 :: s.shape, fun js => s.source js.tail⟩
  | .ellipsis :: key, shape =>
    let k := shape.length - key.countP Entry.takes
    (select key (shape.drop k)).map fun s =>
      ⟨shape.take k ++ s.shape, fun js => js.take k ++ s.source (js.drop k)⟩
  | .integer i :: key, n :: shape =>
    if -n ≤ i ∧ i < n then
      (select key shape).map fun s => ⟨s.shape, fun js => wrapIndex n i :: s.source js⟩
    else none
  | .slice sl :: key, n :: shape =>
    (select key shape).map fun s => ⟨(sl.selected n).length :: s.shape,
      fun js => (sl.selected n).getD js.headI 0 :: s.source js.tail⟩
  | .integer _ :: _, [] => none
  | .slice _ :: _, [] => none

/-- `a[key]`, where it is defined. -/
def NdArray.index {α : Type*} (a : NdArray α) (key : List Entry) : Option (NdArray α) :=
  if 1 < key.count .ellipsis then none
  else (select key a.shape).map fun s => ⟨s.shape, fun js => a.get (s.source js)⟩

/-! ## Slices -/

theorem Slice.bound_mem (n : ℕ) (b : ℤ) : 0 ≤ bound n b ∧ bound n b ≤ n := by
  unfold bound
  split <;> omega

def steps (lo hi step : ℤ) : ℕ := if lo < hi then ((hi - lo - 1) / step + 1).toNat else 0

theorem lt_steps_iff {lo hi step : ℤ} (hstep : 0 < step) (i : ℕ) :
    i < steps lo hi step ↔ lo + i * step < hi := by
  unfold steps
  split_ifs with h
  · have hdiv : 0 ≤ (hi - lo - 1) / step := Int.ediv_nonneg (by omega) hstep.le
    have hle : (i : ℤ) ≤ (hi - lo - 1) / step ↔ (i : ℤ) * step ≤ hi - lo - 1 :=
      Int.le_ediv_iff_mul_le hstep
    constructor
    · intro hi'
      have := hle.1 (by omega)
      linarith
    · intro hi'
      have := hle.2 (by linarith)
      omega
  · have hnonneg : 0 ≤ (i : ℤ) * step := mul_nonneg (Int.natCast_nonneg i) hstep.le
    exact iff_of_false (Nat.not_lt_zero i) (by linarith)

/-- **A slice selects evenly spaced indices.** -/
theorem Slice.selected_eq (s : Slice) (n : ℕ) (hstep : 0 < s.step.getD 1) :
    s.selected n = (List.range (steps (s.start.elim 0 (bound n)) (s.stop.elim (n : ℤ) (bound n))
      (s.step.getD 1))).map fun i =>
        (s.start.elim 0 (bound n) + (i : ℕ) * s.step.getD 1).toNat := by
  have hlo : 0 ≤ s.start.elim 0 (bound n) := by
    cases s.start with
    | none => exact le_rfl
    | some b => exact (bound_mem n b).1
  have hhi : s.stop.elim (n : ℤ) (bound n) ≤ n := by
    cases s.stop with
    | none => exact le_rfl
    | some b => exact (bound_mem n b).2
  unfold Slice.selected
  simp only
  generalize s.start.elim 0 (bound n) = lo at *
  generalize s.stop.elim (n : ℤ) (bound n) = hi at *
  generalize s.step.getD 1 = step at *
  have hsorted : ((List.range (steps lo hi step)).map fun i =>
      (lo + (i : ℕ) * step).toNat).Pairwise (· < ·) := by
    rw [List.pairwise_map]
    refine List.pairwise_lt_range.imp fun {i j} hij => ?_
    have hmul : (i : ℤ) * step < j * step := by
      exact mul_lt_mul_of_pos_right (by exact_mod_cast hij) hstep
    have hnonneg : 0 ≤ (i : ℤ) * step := mul_nonneg (Int.natCast_nonneg i) hstep.le
    omega
  refine @List.Perm.eq_of_pairwise _ (· < ·) _ _ (fun a b _ _ hab hba => by omega)
    (List.pairwise_lt_range.filter _) hsorted ?_
  refine (List.perm_ext_iff_of_nodup (List.nodup_range.filter _)
    (hsorted.imp fun h => ne_of_lt h)).2 fun x => ?_
  simp only [List.mem_filter, List.mem_range, List.mem_map, decide_eq_true_eq, lt_steps_iff hstep]
  constructor
  · rintro ⟨-, hx, hlt, c, hc⟩
    have hcnonneg : 0 ≤ c := by
      by_contra hneg
      have := mul_neg_of_pos_of_neg hstep (not_le.1 hneg)
      omega
    refine ⟨c.toNat, ?_, ?_⟩
    · rw [Int.toNat_of_nonneg hcnonneg, mul_comm]
      omega
    · rw [Int.toNat_of_nonneg hcnonneg, mul_comm, ← hc]
      omega
  · rintro ⟨i, hi', rfl⟩
    have hnonneg : 0 ≤ (i : ℤ) * step := mul_nonneg (Int.natCast_nonneg i) hstep.le
    have hcast : (((lo + i * step).toNat : ℕ) : ℤ) = lo + i * step :=
      Int.toNat_of_nonneg (by omega)
    refine ⟨by omega, by omega, by omega, i, ?_⟩
    rw [hcast]
    ring

/-! ## Flat data -/

section Flat

/-- The number of an index in row-major order. -/
def ravelIndex : List ℕ → List ℕ → ℕ
  | _ :: shape, i :: is => i * shape.prod + ravelIndex shape is
  | _, _ => 0

def unravelIndex : List ℕ → ℕ → List ℕ
  | [], _ => []
  | _ :: shape, k => k / shape.prod :: unravelIndex shape (k % shape.prod)

def InShape (is shape : List ℕ) : Prop := List.Forall₂ (· < ·) is shape

theorem ravelIndex_lt {is shape : List ℕ} (h : InShape is shape) :
    ravelIndex shape is < shape.prod := by
  induction h with
  | nil => exact Nat.one_pos
  | @cons i n is shape hi _ ih =>
    rw [ravelIndex, List.prod_cons]
    calc i * shape.prod + ravelIndex shape is < i * shape.prod + shape.prod :=
          Nat.add_lt_add_left ih _
      _ = (i + 1) * shape.prod := (Nat.succ_mul i shape.prod).symm
      _ ≤ n * shape.prod := Nat.mul_le_mul_right _ hi

theorem unravelIndex_ravelIndex {is shape : List ℕ} (h : InShape is shape) :
    unravelIndex shape (ravelIndex shape is) = is := by
  induction h with
  | nil => rfl
  | @cons i n is shape hi hrest ih =>
    have hlt := ravelIndex_lt hrest
    rw [ravelIndex, unravelIndex, Nat.add_comm, Nat.add_mul_div_right _ _ (by omega),
      Nat.div_eq_of_lt hlt, Nat.add_mul_mod_self_right, Nat.mod_eq_of_lt hlt, ih, Nat.zero_add]

theorem inShape_unravelIndex {shape : List ℕ} : ∀ {k : ℕ}, k < shape.prod →
    InShape (unravelIndex shape k) shape := by
  induction shape with
  | nil => exact fun _ => .nil
  | cons n shape ih =>
    intro k hk
    rw [List.prod_cons] at hk
    have hpos : 0 < shape.prod := Nat.pos_of_ne_zero fun h => by simp [h] at hk
    exact .cons ((Nat.div_lt_iff_lt_mul hpos).2 hk) (ih (Nat.mod_lt k hpos))

theorem ravelIndex_unravelIndex {shape : List ℕ} : ∀ {k : ℕ}, k < shape.prod →
    ravelIndex shape (unravelIndex shape k) = k := by
  induction shape with
  | nil => exact fun hk => (Nat.lt_one_iff.1 hk).symm
  | cons n shape ih =>
    intro k hk
    rw [List.prod_cons] at hk
    have hpos : 0 < shape.prod := Nat.pos_of_ne_zero fun h => by simp [h] at hk
    rw [unravelIndex, ravelIndex, ih (Nat.mod_lt k hpos), Nat.mul_comm, Nat.div_add_mod]

/-- The entries of a list at some places. -/
def permute (axes l : List ℕ) : List ℕ := axes.map fun a => l.getD a 0

/-- The list that has the entries of another at some places. -/
def unpermute (axes js : List ℕ) : List ℕ :=
  (List.range axes.length).map fun d => js.getD (axes.idxOf d) 0

/-- An array as its elements in row-major order. -/
structure FlatArray (α : Type*) where
  shape : List ℕ
  data : List α

variable {α : Type*} [Inhabited α]

def elementAt (shape : List ℕ) (data : List α) (is : List ℕ) : α :=
  data.getD (ravelIndex shape is) default

def transposeData (shape axes : List ℕ) (data : List α) : List α :=
  (List.range (permute axes shape).prod).map fun k =>
    elementAt shape data (unpermute axes (unravelIndex (permute axes shape) k))

def FlatArray.reshape (a : FlatArray α) (shape : List ℕ) : Option (FlatArray α) :=
  if shape.prod = a.data.length then some ⟨shape, a.data⟩ else none

def FlatArray.transpose (a : FlatArray α) (axes : List ℕ) : FlatArray α :=
  ⟨permute axes a.shape, transposeData a.shape axes a.data⟩

theorem length_transposeData (shape axes : List ℕ) (data : List α) :
    (transposeData shape axes data).length = (permute axes shape).prod := by
  rw [transposeData, List.length_map, List.length_range]

theorem elementAt_transposeData {shape axes js : List ℕ} (data : List α)
    (hjs : InShape js (permute axes shape)) :
    elementAt (permute axes shape) (transposeData shape axes data) js =
      elementAt shape data (unpermute axes js) := by
  have hlt := ravelIndex_lt hjs
  rw [elementAt, transposeData, List.getD_eq_getElem _ _ (by simpa using hlt), List.getElem_map,
    List.getElem_range, unravelIndex_ravelIndex hjs]

theorem map_elementAt {shape : List ℕ} {data : List α} (hlen : data.length = shape.prod) :
    (List.range shape.prod).map (fun k => elementAt shape data (unravelIndex shape k)) = data := by
  apply List.ext_getElem (by simp [hlen])
  intro k hk hk'
  have hlt : k < shape.prod := hlen ▸ hk'
  rw [List.getElem_map, List.getElem_range, elementAt, ravelIndex_unravelIndex hlt,
    List.getD_eq_getElem _ _ hk']

/-- **Transposing back.** -/
theorem transposeData_transposeData {shape axes axes' : List ℕ} {data : List α}
    (hlen : data.length = shape.prod) (hshape : permute axes' (permute axes shape) = shape)
    (hindex : ∀ is, InShape is shape → InShape (unpermute axes' is) (permute axes shape) ∧
      unpermute axes (unpermute axes' is) = is) :
    transposeData (permute axes shape) axes' (transposeData shape axes data) = data := by
  conv_rhs => rw [← map_elementAt hlen]
  rw [transposeData, hshape]
  refine List.map_congr_left fun k hk => ?_
  obtain ⟨hin, hback⟩ := hindex _ (inShape_unravelIndex (List.mem_range.1 hk))
  rw [elementAt_transposeData data hin, hback]

end Flat

end MlirAie.Lib
